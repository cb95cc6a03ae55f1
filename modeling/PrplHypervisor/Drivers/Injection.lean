import PrplHypervisor.Drivers.RedirectInit

/-!
# Delivery of redirected interrupts

`interrupt_injection` goes through the whole table and clears the flag of an interrupt at the
first entry that has it. Lines start at the fifth of the eight bits of `GRIPL`.

- `served`: the entries that find their flag set.
- `injectAll_words`: the lines of these entries are what a run adds to `GuestCTL2` and to the
  saved words.
- `Delivered`: what it ought to add, the line of every entry whose interrupt is raised.
- `injection_delivers`: it does so exactly if the raised interrupts are configured once, each
  among the first four of its VM.
-/

namespace PrplHypervisor

open Machine Word32 Genconf

variable {n : Nat} {H : Type}

/-- Entries that find their interrupt raised, where the first one clears the flag. -/
def served : (Nat → Bool) → List (InterruptMapping n) → List (InterruptMapping n)
  | _, [] => []
  | ifs, e :: es =>
    if ifs e.irqNumber then e :: served (Function.update ifs e.irqNumber false) es
    else served ifs es

/-- Lines of `v` among the entries, as they stand in `GuestCTL2`. -/
def linesOf (v : Fin n) : List (InterruptMapping n) → Word
  | [] => 0#32
  | e :: es => (if e.vcpu = v then gripl e.irqGuest else 0#32) ||| linesOf v es

/-- What a run from `m` to `m'` ought to do with the entries whose interrupts are raised:
each has a line of its own inside `GRIPL`, and exactly these lines are added, for `running` in
`GuestCTL2` and for the others in the word saved for them. -/
structure Delivered (raised : List (InterruptMapping n)) (running : Fin n) (m m' : Machine n) :
    Prop where
  inside : ∀ e ∈ raised, 0 < e.irqGuest ∧ e.irqGuest < 2 ^ 8
  distinct : ∀ e ∈ raised, ∀ e' ∈ raised, e.vcpu = e'.vcpu → e.irqNumber ≠ e'.irqNumber →
    e.irqGuest ≠ e'.irqGuest
  guestCtl2 : m'.cpu.guestCtl2 = m.cpu.guestCtl2 ||| linesOf running raised
  guestclt2 : ∀ v, (m'.vcpu v).guestclt2 =
    if v = running then (m.vcpu v).guestclt2 else (m.vcpu v).guestclt2 ||| linesOf v raised

/-! ## The pass over the table -/

section Pass

variable {ifs : Nat → Bool} {es : List (InterruptMapping n)} {e f : InterruptMapping n}

theorem mem_of_mem_served (h : e ∈ served ifs es) : e ∈ es ∧ ifs e.irqNumber = true := by
  induction es generalizing ifs with
  | nil => cases h
  | cons head es ih =>
    rw [served] at h
    split at h
    case isTrue hset =>
      rcases List.mem_cons.mp h with rfl | h
      · exact ⟨List.mem_cons_self, hset⟩
      · obtain ⟨hmem, hflag⟩ := ih h
        refine ⟨List.mem_cons_of_mem _ hmem, ?_⟩
        by_cases hirq : e.irqNumber = head.irqNumber
        · rw [hirq, Function.update_self] at hflag
          cases hflag
        · rwa [Function.update_of_ne hirq] at hflag
    case isFalse =>
      obtain ⟨hmem, hflag⟩ := ih h
      exact ⟨List.mem_cons_of_mem _ hmem, hflag⟩

/-- Every raised interrupt is served once. -/
theorem exists_served (he : e ∈ es) (hset : ifs e.irqNumber = true) :
    ∃ f ∈ served ifs es, f.irqNumber = e.irqNumber := by
  induction es generalizing ifs with
  | nil => cases he
  | cons head es ih =>
    rw [served]
    by_cases hirq : e.irqNumber = head.irqNumber
    · rw [hirq] at hset
      rw [if_pos hset]
      exact ⟨head, List.mem_cons_self, hirq.symm⟩
    · have hmem : e ∈ es := (List.mem_cons.mp he).resolve_left fun h => hirq (h ▸ rfl)
      split
      · obtain ⟨f, hf, hfe⟩ := ih hmem (show Function.update ifs head.irqNumber false
          e.irqNumber = true by rwa [Function.update_of_ne hirq])
        exact ⟨f, List.mem_cons_of_mem _ hf, hfe⟩
      · exact ih hmem hset

theorem served_unique (he : e ∈ served ifs es) (hf : f ∈ served ifs es)
    (hirq : e.irqNumber = f.irqNumber) : e = f := by
  induction es generalizing ifs with
  | nil => cases he
  | cons head es ih =>
    rw [served] at he hf
    split at he
    case isTrue hset =>
      rw [if_pos hset] at hf
      -- what is served later has another interrupt
      have hlater : ∀ g ∈ served (Function.update ifs head.irqNumber false) es,
          g.irqNumber ≠ head.irqNumber := by
        intro g hg heq
        have hflag := (mem_of_mem_served hg).2
        rw [heq, Function.update_self] at hflag
        cases hflag
      rcases List.mem_cons.mp he with rfl | he
      · rcases List.mem_cons.mp hf with rfl | hf
        · rfl
        · exact absurd hirq.symm (hlater f hf)
      · rcases List.mem_cons.mp hf with rfl | hf
        · exact absurd hirq (hlater e he)
        · exact ih he hf
    case isFalse hset =>
      rw [if_neg hset] at hf
      exact ih he hf

theorem getLsbD_linesOf (v : Fin n) (b : Nat) : (linesOf v es).getLsbD b = true ↔
    ∃ e ∈ es, e.vcpu = v ∧ (gripl e.irqGuest).getLsbD b = true := by
  induction es with
  | nil => simp [linesOf]
  | cons e es ih =>
    rw [linesOf, BitVec.getLsbD_or, Bool.or_eq_true, ih, List.exists_mem_cons_iff]
    refine or_congr_left ?_
    by_cases hv : e.vcpu = v <;> simp [hv]

theorem linesOf_congr {es' : List (InterruptMapping n)} (h : ∀ e, e ∈ es ↔ e ∈ es')
    (v : Fin n) : linesOf v es = linesOf v es' := by
  refine BitVec.eq_of_getLsbD_eq fun b _ => Bool.eq_iff_iff.mpr ?_
  simp only [getLsbD_linesOf, h]

theorem linesOf_cons (v : Fin n) (e : InterruptMapping n) (es : List (InterruptMapping n)) :
    linesOf v (e :: es) = linesOf v [e] ||| linesOf v es := by
  rw [linesOf, linesOf, linesOf, BitVec.or_zero]

theorem linesOf_single_same (e : InterruptMapping n) :
    linesOf e.vcpu [e] = gripl e.irqGuest := by
  rw [linesOf, linesOf, if_pos rfl, BitVec.or_zero]

theorem linesOf_single_other {v : Fin n} (h : e.vcpu ≠ v) : linesOf v [e] = 0#32 := by
  rw [linesOf, linesOf, if_neg h, BitVec.or_zero]

/-- An entry that finds its flag set clears it and adds its own line. -/
theorem injectOne_words {m : Machine n} (hset : m.cpu.ifs e.irqNumber = true) (self : Fin n) :
    (injectOne self m e).1.cpu.ifs = Function.update m.cpu.ifs e.irqNumber false ∧
      (injectOne self m e).1.cpu.guestCtl2 = m.cpu.guestCtl2 ||| linesOf self [e] ∧
      ∀ v, ((injectOne self m e).1.vcpu v).guestclt2 = if v = self then (m.vcpu v).guestclt2
        else (m.vcpu v).guestclt2 ||| linesOf v [e] := by
  by_cases hself : e.vcpu = self
  · subst hself
    have hone : (injectOne e.vcpu m e).1 =
        raiseRunning (acknowledge m e.irqNumber) e.irqGuest := by
      rw [injectOne, if_pos hset, if_pos rfl]
    rw [hone, linesOf_single_same]
    refine ⟨rfl, rfl, fun v => ?_⟩
    by_cases hv : v = e.vcpu
    · rw [if_pos hv]
      rfl
    · rw [if_neg hv, linesOf_single_other (Ne.symm hv), BitVec.or_zero]
      rfl
  · have hone : (injectOne self m e).1 =
        raiseSaved (acknowledge m e.irqNumber) e.vcpu e.irqGuest := by
      rw [injectOne, if_pos hset, if_neg hself]
    rw [hone, linesOf_single_other hself, BitVec.or_zero]
    refine ⟨rfl, rfl, fun v => ?_⟩
    rw [raiseSaved_guestclt2]
    by_cases hown : v = e.vcpu
    · subst hown
      rw [if_pos rfl, if_neg hself, linesOf_single_same]
      rfl
    · rw [if_neg hown, linesOf_single_other (Ne.symm hown), BitVec.or_zero, ite_self]
      rfl

/-- The whole pass adds the lines of the entries served. -/
theorem injectAll_words (self : Fin n) (es : List (InterruptMapping n)) (m : Machine n) :
    (injectAll self m es).1.cpu.guestCtl2 =
        m.cpu.guestCtl2 ||| linesOf self (served m.cpu.ifs es) ∧
      ∀ v, ((injectAll self m es).1.vcpu v).guestclt2 = if v = self then (m.vcpu v).guestclt2
        else (m.vcpu v).guestclt2 ||| linesOf v (served m.cpu.ifs es) := by
  induction es generalizing m with
  | nil =>
    have hzero : ∀ (w : Word) (v : Fin n), w ||| linesOf v [] = w := fun w v => BitVec.or_zero
    refine ⟨(hzero _ self).symm, fun v => ?_⟩
    rw [served, hzero, ite_self]
    rfl
  | cons e es ih =>
    obtain ⟨hctl, hsaved⟩ := ih (injectOne self m e).1
    have hstep : (injectAll self m (e :: es)).1 =
        (injectAll self (injectOne self m e).1 es).1 := rfl
    rw [hstep, hctl, served]
    by_cases hset : m.cpu.ifs e.irqNumber = true
    · obtain ⟨hifs, hctl₁, hsaved₁⟩ := injectOne_words hset self
      rw [if_pos hset, hctl₁, hifs, linesOf_cons self e (served _ es), BitVec.or_assoc]
      refine ⟨rfl, fun v => ?_⟩
      rw [hsaved v, hsaved₁ v, hifs]
      by_cases hv : v = self
      · rw [if_pos hv, if_pos hv, if_pos hv]
      · rw [if_neg hv, if_neg hv, if_neg hv, linesOf_cons v e (served _ es), BitVec.or_assoc]
    · have hone : (injectOne self m e).1 = m := by rw [injectOne, if_neg hset]
      rw [hone] at hsaved ⊢
      rw [if_neg hset]
      exact ⟨rfl, hsaved⟩

end Pass

/-! ## Lines and indices -/

/-- The first four lines fit into `GRIPL`, at four different bits. -/
theorem irqGuest_first : ∀ j ≤ 3, 0 < irqGuest j ∧ irqGuest j < 2 ^ 8 ∧
    ∀ i ≤ 3, (gripl (irqGuest i)).getLsbD (28 + j) = true ↔ i = j := by
  decide

theorem le_three_of_irqGuest {j : Nat} (hpos : 0 < irqGuest j) (hlt : irqGuest j < 2 ^ 8) :
    j ≤ 3 := by
  have hsmall : ∀ j < 32, 0 < irqGuest j → irqGuest j < 2 ^ 8 → j ≤ 3 := by decide
  rcases Nat.lt_or_ge j 32 with h | h
  · exact hsmall j h hpos hlt
  · have hzero : irqGuest j = 0 := by
      rw [irqGuest, BitVec.shiftLeft_eq_zero h]
      rfl
    omega

theorem irqGuest_inj {i j : Nat} (hi : i ≤ 3) (hj : j ≤ 3) (h : irqGuest i = irqGuest j) :
    i = j := by
  refine ((irqGuest_first j hj).2.2 i hi).mp ?_
  rw [h]
  exact ((irqGuest_first j hj).2.2 j hj).mpr rfl

section Redirected

variable (irqNumber : String → Nat) (confs : List VmConf)

/-- The interrupt with index `j` in the list of VM `v`. -/
def redirected (v j : Nat) : Option String := confs[v]?.bind fun conf => conf.interruptRedirect[j]?

/-- The table built at startup. -/
abbrev startedTable (cpu : Cpu) :
    List (InterruptMapping (initializeMachines confs).machines.length) :=
  redirectTable irqNumber fun v => ((started confs cpu).vm v).vmconf

/-- Every raised interrupt that is configured is among the first four of its VM and is
configured once. -/
def Deliverable (raised : Nat → Bool) : Prop :=
  ∀ v j name, redirected confs v j = some name → raised (irqNumber name) = true →
    j ≤ 3 ∧ ∀ v' j' name', redirected confs v' j' = some name' →
      irqNumber name' = irqNumber name → v' = v ∧ j' = j

variable {irqNumber confs} {cpu : Cpu}

theorem mem_startedTable {e : InterruptMapping (initializeMachines confs).machines.length} :
    e ∈ startedTable irqNumber confs cpu ↔ ∃ j name, redirected confs e.vcpu.val j = some name ∧
      e.irqNumber = irqNumber name ∧ e.irqGuest = irqGuest j := by
  simp only [mem_redirectTable, redirected, started_vmconf cpu e.vcpu, Option.bind_some]

/-- What is configured has an entry. -/
theorem exists_entry (irqNumber : String → Nat) (cpu : Cpu) {v j : Nat} {name : String}
    (h : redirected confs v j = some name) :
    ∃ i : Fin (initializeMachines confs).machines.length, i.val = v ∧
      ⟨irqNumber name, irqGuest j, i⟩ ∈ startedTable irqNumber confs cpu := by
  have hlt : v < confs.length := by
    by_contra hge
    rw [redirected, List.getElem?_eq_none (Nat.le_of_not_lt hge)] at h
    cases h
  exact ⟨⟨v, (initializeMachines_length confs).symm ▸ hlt⟩, rfl,
    mem_startedTable.mpr ⟨j, name, h, rfl, rfl⟩⟩

theorem entry_eq {e f : InterruptMapping n} (hvcpu : f.vcpu = e.vcpu)
    (hirq : f.irqNumber = e.irqNumber) (hguest : f.irqGuest = e.irqGuest) : f = e := by
  obtain ⟨irq, guest, v⟩ := e
  obtain ⟨irq', guest', v'⟩ := f
  obtain rfl : v' = v := hvcpu
  obtain rfl : irq' = irq := hirq
  obtain rfl : guest' = guest := hguest
  rfl

/-- Under the condition the entries served are the raised ones. -/
theorem mem_served_iff {raised : Nat → Bool} (hdel : Deliverable irqNumber confs raised)
    (e : InterruptMapping (initializeMachines confs).machines.length) :
    e ∈ served raised (startedTable irqNumber confs cpu) ↔
      e ∈ (startedTable irqNumber confs cpu).filter fun e => raised e.irqNumber := by
  rw [List.mem_filter]
  refine ⟨mem_of_mem_served, fun ⟨he, hraised⟩ => ?_⟩
  obtain ⟨f, hserved, hirq⟩ := exists_served he hraised
  obtain ⟨j, name, hname, hnumber, hguest⟩ := mem_startedTable.mp he
  obtain ⟨j', name', hname', hnumber', hguest'⟩ :=
    mem_startedTable.mp (mem_of_mem_served hserved).1
  have hsole := (hdel _ _ _ hname (hnumber ▸ hraised)).2 _ _ _ hname'
    (hnumber'.symm.trans (hirq.trans hnumber))
  have heq : f = e :=
    entry_eq (Fin.ext hsole.1) hirq (hguest'.trans (hsole.2 ▸ hguest.symm))
  exact heq ▸ hserved

/-- Under the condition a run delivers what is raised. -/
theorem delivered_of_deliverable {raised : Nat → Bool}
    (hdel : Deliverable irqNumber confs raised) {m : Machine _} (self : Fin _)
    (htable : m.interruptMappingList = startedTable irqNumber confs cpu)
    (hifs : m.cpu.ifs = raised) :
    Delivered ((startedTable irqNumber confs cpu).filter fun e => raised e.irqNumber) self m
      (injectAll self m m.interruptMappingList).1 := by
  have hindex : ∀ e ∈ (startedTable irqNumber confs cpu).filter fun e => raised e.irqNumber,
      ∃ j name, redirected confs e.vcpu.val j = some name ∧
        e.irqNumber = irqNumber name ∧ e.irqGuest = irqGuest j ∧ j ≤ 3 := by
    intro e he
    obtain ⟨hmem, hraised⟩ := List.mem_filter.mp he
    obtain ⟨j, name, hname, hnumber, hguest⟩ := mem_startedTable.mp hmem
    exact ⟨j, name, hname, hnumber, hguest, (hdel _ _ _ hname (hnumber ▸ hraised)).1⟩
  obtain ⟨hctl, hsaved⟩ := injectAll_words self m.interruptMappingList m
  rw [htable, hifs] at hctl hsaved
  rw [htable]
  constructor
  case inside =>
    intro e he
    obtain ⟨j, -, -, -, hguest, hj⟩ := hindex e he
    rw [hguest]
    exact ⟨(irqGuest_first j hj).1, (irqGuest_first j hj).2.1⟩
  case distinct =>
    intro e he e' he' hvcpu hne hline
    obtain ⟨j, name, hname, hnumber, hguest, hj⟩ := hindex e he
    obtain ⟨j', name', hname', hnumber', hguest', hj'⟩ := hindex e' he'
    have hsame : j = j' := irqGuest_inj hj hj' (hguest.symm.trans (hline.trans hguest'))
    rw [hsame, hvcpu, hname'] at hname
    exact hne (hnumber.trans (Option.some.inj hname ▸ hnumber'.symm))
  case guestCtl2 => rw [hctl, linesOf_congr (mem_served_iff hdel)]
  case guestclt2 =>
    intro v
    rw [hsaved v, linesOf_congr (mem_served_iff hdel)]

/-- A machine without pending lines that executes `v` while `raised` are raised. -/
def probe (confs : List VmConf) (cpu : Cpu) (raised : Nat → Bool)
    (table : List (InterruptMapping (initializeMachines confs).machines.length))
    (v : Fin (initializeMachines confs).machines.length) :
    Machine (initializeMachines confs).machines.length :=
  { started confs cpu with
    interruptMappingList := table
    cpu := { cpu with ifs := raised, guestCtl2 := 0#32 }
    scheduler := { (started confs cpu).scheduler with vcpuExecutingNd := some (.own v) } }

/-- What a run adds to the empty `GuestCTL2` of the probe are the lines it serves. -/
theorem probe_lines {raised : Nat → Bool} {table : List (InterruptMapping _)} {v : Fin _}
    {m' : Machine _} {os : List (Obs _)}
    (hrun : interruptInjection (probe confs cpu raised table v) = some (m', os))
    (hdel : Delivered (table.filter fun e => raised e.irqNumber) v
      (probe confs cpu raised table v) m') :
    linesOf v (table.filter fun e => raised e.irqNumber) = linesOf v (served raised table) := by
  have hrun' : m' = (injectAll v (probe confs cpu raised table v) table).1 :=
    (congrArg Prod.fst (Option.some.inj hrun)).symm
  have hadded := (injectAll_words v table (probe confs cpu raised table v)).1
  rw [← hrun', hdel.guestCtl2] at hadded
  have hzero : (probe confs cpu raised table v).cpu.guestCtl2 = 0#32 := rfl
  have hflags : (probe confs cpu raised table v).cpu.ifs = raised := rfl
  rwa [hzero, hflags, BitVec.zero_or, BitVec.zero_or] at hadded

/-- If the raised entries have been delivered to the probe, those of its VCPU are served. -/
theorem served_of_delivered {raised : Nat → Bool} {v : Fin _} {m' : Machine _}
    {os : List (Obs _)} {j : Nat} {name : String}
    (hrun : interruptInjection (probe confs cpu raised (startedTable irqNumber confs cpu) v) =
      some (m', os))
    (hdel : Delivered ((startedTable irqNumber confs cpu).filter fun e => raised e.irqNumber) v
      (probe confs cpu raised (startedTable irqNumber confs cpu) v) m')
    (hname : redirected confs v.val j = some name) (hraised : raised (irqNumber name) = true) :
    j ≤ 3 ∧ ⟨irqNumber name, irqGuest j, v⟩ ∈
      served raised (startedTable irqNumber confs cpu) := by
  set table := startedTable irqNumber confs cpu with htable
  have hraisedEntry : ∀ {j' : Nat} {name' : String}, redirected confs v.val j' = some name' →
      raised (irqNumber name') = true →
      ⟨irqNumber name', irqGuest j', v⟩ ∈ table.filter fun e => raised e.irqNumber :=
    fun hname' hraised' => List.mem_filter.mpr
      ⟨mem_startedTable.mpr ⟨_, _, hname', rfl, rfl⟩, hraised'⟩
  have hthree : ∀ {j' : Nat} {name' : String}, redirected confs v.val j' = some name' →
      raised (irqNumber name') = true → j' ≤ 3 := by
    intro j' name' hname' hraised'
    obtain ⟨hpos, hlt⟩ := hdel.inside _ (hraisedEntry hname' hraised')
    exact le_three_of_irqGuest hpos hlt
  have hj := hthree hname hraised
  refine ⟨hj, ?_⟩
  have hbit : (linesOf v (served raised table)).getLsbD (28 + j) = true := by
    rw [← probe_lines hrun hdel]
    exact (getLsbD_linesOf v _).mpr
      ⟨_, hraisedEntry hname hraised, rfl, ((irqGuest_first j hj).2.2 j hj).mpr rfl⟩
  obtain ⟨f, hf, hvcpu, hline⟩ := (getLsbD_linesOf v _).mp hbit
  obtain ⟨hmem, hflag⟩ := mem_of_mem_served hf
  obtain ⟨j', name', hname', hnumber, hguest⟩ := mem_startedTable.mp hmem
  rw [hvcpu] at hname'
  have hsame : j' = j := by
    rw [hguest] at hline
    exact ((irqGuest_first j hj).2.2 j' (hthree hname' (hnumber ▸ hflag))).mp hline
  rw [hsame, hname] at hname'
  have heq : f = ⟨irqNumber name, irqGuest j, v⟩ :=
    entry_eq hvcpu (hnumber.trans (Option.some.inj hname' ▸ rfl)) (hguest.trans (hsame ▸ rfl))
  exact heq ▸ hf

end Redirected

/-- **Delivery of redirected interrupts.** With the table of any configuration, a run of
`interrupt_injection` on every machine adds exactly the lines of the raised interrupts, each
inside `GRIPL`, if and only if every raised interrupt is configured once, among the first
four of its VM. -/
theorem injection_delivers (irqNumber : String → Nat) (confs : List VmConf) (cpu : Cpu)
    (handlers : HandlerTable H) (injection : H) (hypercalls : Nat → Bool)
    (hfree : hypercalls hcallReenableInterrupt = false) (controller : InterruptController) :
    ∃ s handlers' hypercalls',
      interruptRedirectInit irqNumber (started confs cpu) handlers injection hypercalls
        controller = some (s, handlers', hypercalls') ∧
      s.entries.map (fun e => (e.vcpu.val, e.irqNumber, e.irqGuest)) =
        redirections irqNumber confs ∧
      ∀ raised : Nat → Bool,
        (∀ (m : Machine _) (self : Fin _), m.interruptMappingList = s.entries →
          m.cpu.ifs = raised → m.executing = some self →
          ∃ m' os, interruptInjection m = some (m', os) ∧
            Delivered (s.entries.filter fun e => raised e.irqNumber) self m m') ↔
        Deliverable irqNumber confs raised := by
  obtain ⟨s, handlers', hypercalls', hinit, hsz, hfilled⟩ := interruptRedirectInit_eq
    irqNumber (started_ids cpu) handlers injection hypercalls hfree controller
  have hentries : s.entries = startedTable irqNumber confs cpu := hfilled.entries_eq hsz
  refine ⟨s, handlers', hypercalls', hinit,
    hentries ▸ redirectTable_started irqNumber confs cpu, fun raised => ?_⟩
  rw [hentries]
  constructor
  · intro hall v j name hname hraised
    have hserved : ∀ {v j name}, redirected confs v j = some name →
        raised (irqNumber name) = true → ∃ i : Fin _, i.val = v ∧ j ≤ 3 ∧
          ⟨irqNumber name, irqGuest j, i⟩ ∈ served raised (startedTable irqNumber confs cpu) := by
      intro v j name hname hraised
      obtain ⟨i, rfl, -⟩ := exists_entry irqNumber cpu hname
      obtain ⟨m', os, hrun, hdel⟩ := hall
        (probe confs cpu raised (startedTable irqNumber confs cpu) i) i rfl rfl rfl
      exact ⟨i, rfl, served_of_delivered hrun hdel hname hraised⟩
    obtain ⟨i, hi, hj, hmem⟩ := hserved hname hraised
    refine ⟨hj, fun v' j' name' hname' hirq => ?_⟩
    obtain ⟨i', hi', hj', hmem'⟩ := hserved hname' (hirq ▸ hraised)
    have heq := served_unique hmem' hmem hirq
    injection heq with _ hguest hvcpu
    exact ⟨hi'.symm.trans (hvcpu ▸ hi), irqGuest_inj hj' hj hguest⟩
  · intro hdel m self htable hifs hself
    refine ⟨_, (injectAll self m m.interruptMappingList).2, ?_,
      delivered_of_deliverable hdel self htable hifs⟩
    rw [interruptInjection, hself]

theorem redirected_eq (confs : List VmConf) (v j : Nat) :
    redirected confs v j = (confs.map (·.interruptRedirect))[v]?.bind fun names => names[j]? := by
  rw [redirected, List.getElem?_map, Option.bind_map]
  rfl

/-- The UART of `ping` has an interrupt that nobody else asks for. -/
theorem deliverable_redirecting : Deliverable headerNumber redirectingConfs (· == 146) := by
  have hnames : redirectingConfs.map (·.interruptRedirect) =
      [["IRQ_U2RX", "IRQ_CNB"], ["IRQ_T2"]] := by decide
  have hsole : ∀ {v j name}, redirected redirectingConfs v j = some name →
      (headerNumber name == 146) = true → v = 0 ∧ j = 0 := by
    intro v j name hname hraised
    rw [redirected_eq, hnames] at hname
    match v, j with
    | 0, 0 => exact ⟨rfl, rfl⟩
    | 0, 1 =>
      obtain rfl := Option.some.inj hname
      exact absurd hraised (by decide)
    | 1, 0 =>
      obtain rfl := Option.some.inj hname
      exact absurd hraised (by decide)
    | 0, _ + 2 => cases hname
    | 1, _ + 1 => cases hname
    | _ + 2, _ => cases hname
  intro v j name hname hraised
  obtain ⟨rfl, rfl⟩ := hsole hname hraised
  exact ⟨by decide, fun v' j' name' hname' hirq => hsole hname' (hirq ▸ hraised)⟩

/-- It is delivered on every machine with this configuration. -/
theorem injection_delivers_redirecting : ∃ s handlers' hypercalls',
    interruptRedirectInit headerNumber (started redirectingConfs pingPongMachine.cpu)
      (fun _ => none) () (fun _ => false) ⟨fun _ => 0, fun _ => false, fun _ => false, fun _ => 0⟩ =
        some (s, handlers', hypercalls') ∧
      ∀ (m : Machine _) (self : Fin _), m.interruptMappingList = s.entries →
        (m.cpu.ifs = fun irq => irq == 146) → m.executing = some self →
        ∃ m' os, interruptInjection m = some (m', os) ∧
          Delivered (s.entries.filter fun e => e.irqNumber == 146) self m m' := by
  obtain ⟨s, handlers', hypercalls', hinit, -, hall⟩ := injection_delivers headerNumber
    redirectingConfs pingPongMachine.cpu (fun _ => none) () (fun _ => false) rfl
    ⟨fun _ => 0, fun _ => false, fun _ => false, fun _ => 0⟩
  exact ⟨s, handlers', hypercalls', hinit, (hall (· == 146)).mpr deliverable_redirecting⟩

/-- Both VMs ask for the receive interrupt of one UART. -/
def sharingVms : List VmSetting :=
  [{ bareVm "ping" "MEM_SIZE_32KB" with interruptRedirect := ["IRQ_U2RX"] },
    { bareVm "pong" "MEM_SIZE_32KB" with interruptRedirect := ["IRQ_U2RX"] }]

def sharingConfs : List VmConf :=
  ((genConfVms (some sharingVms)).toOption.getD []).map Prod.fst

/-- The configuration is accepted, and only the first VM gets the interrupt. -/
theorem shared_interrupt_lost : (genConfVms (some sharingVms)).toOption.isSome = true ∧
    ∃ s handlers' hypercalls',
      interruptRedirectInit headerNumber (started sharingConfs pingPongMachine.cpu)
        (fun _ => none) () (fun _ => false)
        ⟨fun _ => 0, fun _ => false, fun _ => false, fun _ => 0⟩ =
          some (s, handlers', hypercalls') ∧
      ∃ (m m' : Machine _) (self : Fin _) (os : List (Obs _)),
        m.interruptMappingList = s.entries ∧ m.executing = some self ∧
        interruptInjection m = some (m', os) ∧
        ¬ Delivered (s.entries.filter fun e => m.cpu.ifs e.irqNumber) self m m' := by
  obtain ⟨s, handlers', hypercalls', hinit, hsz, hfilled⟩ := interruptRedirectInit_eq
    headerNumber (m := started sharingConfs pingPongMachine.cpu) (started_ids _)
    (fun _ => none) () (fun _ => false) rfl
    ⟨fun _ => 0, fun _ => false, fun _ => false, fun _ => 0⟩
  have hentries : s.entries = startedTable headerNumber sharingConfs pingPongMachine.cpu :=
    hfilled.entries_eq hsz
  refine ⟨by decide, s, handlers', hypercalls', hinit,
    probe sharingConfs pingPongMachine.cpu (· == 146) s.entries ⟨0, by decide⟩, _,
    ⟨0, by decide⟩, _, rfl, rfl, rfl, fun hdel => ?_⟩
  rw [hentries] at hdel
  have hword := hdel.guestclt2 ⟨1, by decide⟩
  revert hword
  decide

end PrplHypervisor
