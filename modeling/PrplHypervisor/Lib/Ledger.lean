import Mathlib.Logic.Function.Basic

/-!
# Computations that keep a ledger

A `Ledger ε α` is a result and the entries made on the way to it. `Ensures ok m post` says that
the result satisfies `post` if every entry is `ok`; the rules follow the steps of the
computation, so that a condition on a whole run can be used where a step made its entry.

`Gives ok m a` says that a run is clean and what its result is. `Agree rel m m'` relates two
computations step by step: the same entries, and related results.
-/

namespace PrplHypervisor

structure Ledger (ε α : Type) where
  val : α
  entries : List ε

namespace Ledger

variable {ε α β σ : Type}

instance : Monad (Ledger ε) where
  pure a := { val := a, entries := [] }
  bind m f := { val := (f m.val).val, entries := m.entries ++ (f m.val).entries }

/-- The entry `e`. -/
def note (e : ε) : Ledger ε Unit := { val := (), entries := [e] }

/-- No entry of the run is other than `ok`. -/
def Clean (ok : ε → Prop) (m : Ledger ε α) : Prop := ∀ e ∈ m.entries, ok e

instance (ok : ε → Prop) [DecidablePred ok] (m : Ledger ε α) : Decidable (m.Clean ok) :=
  inferInstanceAs (Decidable (∀ e ∈ m.entries, ok e))

def Ensures (ok : ε → Prop) (m : Ledger ε α) (post : α → Prop) : Prop := m.Clean ok → post m.val

variable {ok : ε → Prop} {m : Ledger ε α} {f : α → Ledger ε β} {post : α → Prop} {goal : β → Prop}

@[simp]
theorem val_pure (a : α) : (pure a : Ledger ε α).val = a := rfl

@[simp]
theorem val_bind : (m >>= f).val = (f m.val).val := rfl

theorem clean_bind : (m >>= f).Clean ok ↔ m.Clean ok ∧ (f m.val).Clean ok :=
  List.forall_mem_append

theorem clean_pure (a : α) : (pure a : Ledger ε α).Clean ok := fun e he => by cases he

theorem clean_note (e : ε) : (note e).Clean ok ↔ ok e := List.forall_mem_singleton

theorem ensures_pure {a : α} (h : post a) : Ensures ok (pure a) post := fun _ => h

theorem Ensures.bind (hm : Ensures ok m post) (hf : ∀ a, post a → Ensures ok (f a) goal) :
    Ensures ok (m >>= f) goal := by
  intro hclean
  obtain ⟨hfirst, hrest⟩ := clean_bind.mp hclean
  exact hf m.val (hm hfirst) hrest

theorem Ensures.mono {post' : α → Prop} (hm : Ensures ok m post) (h : ∀ a, post a → post' a) :
    Ensures ok m post' := fun hclean => h m.val (hm hclean)

/-- The entry of the first step is `ok` in what follows. -/
theorem ensures_note {e : ε} {f : Unit → Ledger ε β} (hf : ok e → Ensures ok (f ()) goal) :
    Ensures ok (note e >>= f) goal := by
  intro hclean
  obtain ⟨hfirst, hrest⟩ := clean_bind.mp hclean
  exact hf ((clean_note e).mp hfirst) hrest

/-- A loop that counts down: `inv i` holds when all of the rounds from `i` on are done. -/
theorem ensures_countdown {step : σ → Nat → Ledger ε σ} (inv : Nat → σ → Prop) {n : Nat}
    (hstep : ∀ i < n, ∀ s, inv (i + 1) s → Ensures ok (step s i) (inv i)) {s : σ}
    (hs : inv n s) : Ensures ok ((List.range n).reverse.foldlM step s) (inv 0) := by
  induction n generalizing s with
  | zero => exact ensures_pure hs
  | succ n ih =>
    rw [List.range_succ, List.reverse_append, List.reverse_singleton, List.singleton_append,
      List.foldlM_cons]
    exact (hstep n (Nat.lt_succ_self n) s hs).bind fun t ht =>
      ih (fun i hi => hstep i (Nat.lt_succ_of_lt hi)) ht

/-! ## One run -/

/-- The run has the result `a`, and no entry other than `ok`. -/
def Gives (ok : ε → Prop) (m : Ledger ε α) (a : α) : Prop := m.val = a ∧ m.Clean ok

instance (ok : ε → Prop) [DecidablePred ok] [DecidableEq α] (m : Ledger ε α) (a : α) :
    Decidable (Gives ok m a) :=
  inferInstanceAs (Decidable (_ ∧ _))

theorem gives_pure (a : α) : Gives ok (pure a : Ledger ε α) a := ⟨rfl, clean_pure a⟩

theorem Gives.bind {a : α} {b : β} (hm : Gives ok m a) (hf : Gives ok (f a) b) :
    Gives ok (m >>= f) b := by
  obtain ⟨rfl, hclean⟩ := hm
  exact ⟨hf.1, clean_bind.mpr ⟨hclean, hf.2⟩⟩

/-! ## Two computations -/

variable {α' β' σ' : Type} {rel : α → α' → Prop} {goal' : β → β' → Prop}
variable {m' : Ledger ε α'} {f' : α' → Ledger ε β'}

def Agree (rel : α → α' → Prop) (m : Ledger ε α) (m' : Ledger ε α') : Prop :=
  m.entries = m'.entries ∧ rel m.val m'.val

theorem agree_pure {a : α} {a' : α'} (h : rel a a') :
    Agree rel (pure a : Ledger ε α) (pure a') := ⟨rfl, h⟩

theorem Agree.bind (hm : Agree rel m m') (hf : ∀ a a', rel a a' → Agree goal' (f a) (f' a')) :
    Agree goal' (m >>= f) (m' >>= f') := by
  obtain ⟨hentries, hval⟩ := hm
  obtain ⟨hrest, hresult⟩ := hf m.val m'.val hval
  exact ⟨congrArg₂ (· ++ ·) hentries hrest, hresult⟩

theorem agree_note {e e' : ε} {f : Unit → Ledger ε β} {f' : Unit → Ledger ε β'} (he : e = e')
    (hf : Agree goal' (f ()) (f' ())) : Agree goal' (note e >>= f) (note e' >>= f') := by
  subst he
  obtain ⟨hentries, hresult⟩ := hf
  exact ⟨congrArg ([e] ++ ·) hentries, hresult⟩

theorem Agree.eq {m' : Ledger ε α} (h : Agree Eq m m') : m = m' := by
  obtain ⟨hentries, hval⟩ := h
  cases m
  cases m'
  cases hentries
  cases hval
  rfl

theorem agree_countdown {step : σ → Nat → Ledger ε σ} {step' : σ' → Nat → Ledger ε σ'}
    {rel : σ → σ' → Prop} {n : Nat}
    (hstep : ∀ i s s', rel s s' → Agree rel (step s i) (step' s' i)) {s : σ} {s' : σ'}
    (hs : rel s s') :
    Agree rel ((List.range n).reverse.foldlM step s) ((List.range n).reverse.foldlM step' s') := by
  induction n generalizing s s' with
  | zero => exact agree_pure hs
  | succ n ih =>
    rw [List.range_succ, List.reverse_append, List.reverse_singleton, List.singleton_append,
      List.foldlM_cons, List.foldlM_cons]
    exact (hstep n s s' hs).bind fun t t' ht => ih ht

end Ledger

end PrplHypervisor
