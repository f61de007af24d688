import TieredAllocator.Rseq.Entry

/-!
# Restartable sequences — pop

What a thread knows at each instruction of `rseq_slab_pop`: up to the commit what it has read of
its slab (`PopReading`), behind it what it popped (`PopDone`).  Each instruction leads from what is
known before it to what is known behind it, an interruption to the start or to nothing worse, except
between the commit and the store that clears `rseq_cs`.  `popOutline` collects this.
-/

namespace TieredAllocator.Rseq
open Lib Slabs

variable {base count descriptor sc : Nat} {th th' : ThreadState Reg} {m m' : Memory}
  {f : Nat → Nat → List Nat} {o : SlabOp} {cpu p : Nat} {a : SlabAnswer}

/-! ### What the thread knows -/

/-- It has read `v`, and has popped nothing. -/
def PopReading (base count descriptor sc : Nat) (th : ThreadState Reg) (v : View) :
    (pc : Nat) → Prop
  | 8 => AtSlab base count descriptor th ∧ th.regs .r10 = th.cpu ∧ th.regs .rax = v.cur
  | 9 => AtSlab base count descriptor th ∧ th.regs .r10 = th.cpu ∧ th.regs .rax = v.cur ∧
      th.regs .r11 = th.cpu
  | 10 => AtSlab base count descriptor th ∧ th.regs .rax = v.cur ∧ th.flags.zero = true
  | 11 => AtSlab base count descriptor th ∧ th.regs .rax = v.cur
  | 12 => AtSlab base count descriptor th ∧ th.regs .rax = v.cur ∧
      th.flags.zero = decide (v.cur = 0) ∧ th.flags.carry = false
  | 13 => AtSlab base count descriptor th ∧ th.regs .rax = v.cur ∧ 0 < v.cur
  | 14 => AtSlab base count descriptor th ∧ th.regs .rdx + 1 = v.cur
  | 15 => AtSlab base count descriptor th ∧ th.regs .rdx + 1 = v.cur ∧
      th.regs .rax = slabOffset sc
  | 16 => AtSlab base count descriptor th ∧ th.regs .rdx + 1 = v.cur ∧
      th.regs .rax = slabOffset sc + th.regs .rdx
  | 17 => AtSlab base count descriptor th ∧ th.regs .rdx + 1 = v.cur ∧
      th.regs .r9 = v.slot (th.regs .rdx)
  -- the abort handler
  | 33 => True
  | pc => Entering base count descriptor th pc

/-- It has popped `p` on the CPU `cpu`, or found nothing to pop there. -/
def PopDone (count descriptor : Nat) (th : ThreadState Reg) (cpu p : Nat) : (pc : Nat) → Prop
  | 18 => th.rseqCs = descriptor ∧ th.regs .r9 = p ∧ cpu < count
  | 19 => th.rseqCs = descriptor ∧ th.regs .rax = 0 ∧ th.regs .r9 = p ∧ cpu < count
  | 20 => th.rseqCs = 0 ∧ th.regs .r9 = p ∧ cpu < count
  | 21 => th.regs .r9 = p ∧ th.regs .usedFastpath = 1 ∧ cpu < count
  | 23 | 24 | 25 => p = 0 ∧ cpu < count
  | 26 => p = 0 ∧ th.regs .usedFastpath = 1 ∧ cpu < count
  | 28 | 29 | 30 => p = 0 ∧ count ≤ cpu
  | 31 => p = 0 ∧ th.regs .usedFastpath = 0 ∧ count ≤ cpu
  | 22 | 27 | 32 | 34 => th.regs .result = p ∧ (th.regs .usedFastpath ≠ 0 ↔ cpu < count)
  | _ => False

def popEarly (base count descriptor sc : Nat) (th : ThreadState Reg) (m : Memory) : Prop :=
  th.cpu < 2 ^ 32 ∧ (Call.pop sc).Inputs base count th.regs ∧
    PopReading base count descriptor sc th (view base sc th.cpu m) th.pc

def popLate (base count descriptor sc : Nat) (th : ThreadState Reg) (cpu : Nat) (a : SlabAnswer) :
    Prop :=
  ∃ p < 2 ^ 64, a = .popped p ∧ (Call.pop sc).Inputs base count th.regs ∧
    PopDone count descriptor th cpu p th.pc

/-- Between the commit and the store that clears `rseq_cs`. -/
def popWindow (th : ThreadState Reg) : Bool := th.pc == 18 || th.pc == 19

/-! ### The operation -/

theorem apply_pop_nil (hcpu : cpu < count) (h : current m (getSlabs base cpu) sc = 0) :
    (SlabOp.pop cpu sc).apply base count m = (.popped 0, m) := by
  simp [SlabOp.apply, slabPop, getSlabsChecked, not_le.mpr hcpu, fallbackAllocate, h]

theorem apply_pop {k : Nat} (hcpu : cpu < count) (h : k + 1 = current m (getSlabs base cpu) sc) :
    (SlabOp.pop cpu sc).apply base count m =
      (.popped (pointer m (getSlabs base cpu) (slabOffset sc + k)),
        setCurrent m (getSlabs base cpu) sc k) := by
  simp [SlabOp.apply, slabPop, getSlabsChecked, not_le.mpr hcpu, fallbackAllocate, ← h,
    ← Nat.add_assoc]

/-! ### Up to the commit -/

theorem popReading_of_entering {n : Nat} {v : View} (hn : n ≤ 7)
    (h : Entering base count descriptor th n) : PopReading base count descriptor sc th v n := by
  match n, hn with
  | 0, _ | 1, _ | 2, _ | 3, _ | 4, _ | 5, _ | 6, _ | 7, _ => exact h

theorem entering_of_popReading {n : Nat} {v : View} (hn : n ≤ 7)
    (h : PopReading base count descriptor sc th v n) : Entering base count descriptor th n := by
  match n, hn with
  | 0, _ | 1, _ | 2, _ | 3, _ | 4, _ | 5, _ | 6, _ | 7, _ => exact h

/-- The instructions before the commit lead on, or to one of the two ways out. -/
theorem pop_reading_step {n : Nat} (hs : Setting base count sc) (hpc : th.pc = n)
    (hn : n < 17 ∨ n = 33) (hcpu : th.cpu < 2 ^ 32)
    (hin : (Call.pop sc).Inputs base count th.regs) (hr : Represents base count m f)
    (he : PopReading base count descriptor sc th (view base sc th.cpu m) n)
    (hstep : (rseqSlabPop descriptor).step tables m th = some (th', m')) :
    m' = m ∧ th'.cpu = th.cpu ∧ (Call.pop sc).Inputs base count th'.regs ∧
      ((∃ k, th'.pc = k ∧ PopReading base count descriptor sc th' (view base sc th.cpu m) k) ∨
        (th'.pc = 23 ∧ th.cpu < count ∧ (view base sc th.cpu m).cur = 0) ∨
        (th'.pc = 28 ∧ count ≤ th.cpu)) := by
  have hexec := Sequence.exec_of_step hpc hstep
  by_cases hlt : n < 7
  · have hcode : ∀ n < 7, (rseqSlabPop descriptor).code[n]? = (prologue 17)[n]? := by
      intro n hn
      interval_cases n <;> rfl
    obtain ⟨rfl, hcpu', hin', h⟩ := enter_step hs hcode hpc hlt hcpu hin
      (entering_of_popReading hlt.le he) hstep
    refine ⟨rfl, hcpu', hin', ?_⟩
    rcases h with ⟨hpc', he'⟩ | ⟨hpc', hle⟩
    · exact .inl ⟨_, hpc', popReading_of_entering hlt he'⟩
    · exact .inr (.inr ⟨hpc', hle⟩)
  generalize hv : view base sc th.cpu m = v at he ⊢
  have hcur : AtSlab base count descriptor th → v.cur < 2 ^ 15 := fun hat => by
    rw [← hv]
    exact (hr th.cpu hat.cpu sc hs.sc_lt).1.trans_lt (slabCapacity_lt hs.sc_lt)
  match n, hn with
  | 7, _ =>
      obtain ⟨hat, hr10⟩ := he
      obtain ⟨rfl, rfl⟩ : th' = th.set .rax (m.load (th.address currentOf) 2) ∧ m' = m :=
        Prod.mk.inj (hexec _ rfl)
      refine ⟨rfl, rfl, hin.update rfl _, .inl ⟨8, by simp [hpc], ⟨hat.1, hat.2, hat.3⟩, hr10, ?_⟩⟩
      rw [ThreadState.set_regs, Function.update_self, hat.currentOf_eq hin hs, ← hv]
      rfl
  | 8, _ =>
      obtain ⟨hat, hr10, hrax⟩ := he
      obtain ⟨rfl, rfl⟩ : th' = th.set .r11 th.cpu ∧ m' = m := Prod.mk.inj (hexec _ rfl)
      exact ⟨rfl, rfl, hin.update rfl _,
        .inl ⟨9, by simp [hpc], ⟨hat.1, hat.2, hat.3⟩, hr10, hrax, by simp⟩⟩
  | 9, _ =>
      obtain ⟨hat, hr10, hrax, hr11⟩ := he
      obtain ⟨rfl, rfl⟩ : th' = { th.next with
          flags := .sub .long (th.regs .r10) (th.regs .r11) } ∧ m' = m := Prod.mk.inj (hexec _ rfl)
      refine ⟨rfl, rfl, hin, .inl ⟨10, by simp [hpc], ⟨hat.1, hat.2, hat.3⟩, hrax, ?_⟩⟩
      exact decide_eq_true (by rw [hr10, hr11])
  | 10, _ =>
      obtain ⟨hat, hrax, hzero⟩ := he
      have h : (th', m') = (if !th.flags.zero then
          { th with pc := (rseqSlabPop descriptor).locate 12 } else th.next, m) := hexec _ rfl
      rw [hzero] at h
      obtain ⟨rfl, rfl⟩ : th' = th.next ∧ m' = m := Prod.mk.inj h
      exact ⟨rfl, rfl, hin, .inl ⟨11, by simp [hpc], ⟨hat.1, hat.2, hat.3⟩, hrax⟩⟩
  | 11, _ =>
      obtain ⟨hat, hrax⟩ := he
      obtain ⟨rfl, rfl⟩ : th' = { th.next with
          flags := .logic .long (th.regs .rax &&& th.regs .rax) } ∧ m' = m :=
        Prod.mk.inj (hexec _ rfl)
      refine ⟨rfl, rfl, hin, .inl ⟨12, by simp [hpc], ⟨hat.1, hat.2, hat.3⟩, hrax, ?_, rfl⟩⟩
      have := hcur hat
      refine decide_eq_decide.mpr ?_
      rw [Nat.and_self, hrax, trunc_long (by omega)]
  | 12, _ =>
      obtain ⟨hat, hrax, hzero, hcarry⟩ := he
      have h : (th', m') = (if th.flags.carry || th.flags.zero then
          { th with pc := (rseqSlabPop descriptor).locate 15 } else th.next, m) := hexec _ rfl
      rw [hcarry, hzero, Bool.false_or] at h
      by_cases h0 : v.cur = 0
      · rw [decide_eq_true h0] at h
        obtain ⟨rfl, rfl⟩ := Prod.mk.inj h
        exact ⟨rfl, rfl, hin, .inr (.inl ⟨rfl, hat.cpu, h0⟩)⟩
      · rw [decide_eq_false h0] at h
        obtain ⟨rfl, rfl⟩ : th' = th.next ∧ m' = m := Prod.mk.inj h
        exact ⟨rfl, rfl, hin,
          .inl ⟨13, by simp [hpc], ⟨hat.1, hat.2, hat.3⟩, hrax, Nat.pos_of_ne_zero h0⟩⟩
  | 13, _ =>
      obtain ⟨hat, hrax, hpos⟩ := he
      obtain ⟨k, hk⟩ : ∃ k : Int, k = ((th.regs .rax : Int) + -1) % 2 ^ 32 := ⟨_, rfl⟩
      obtain ⟨rfl, rfl⟩ : th' = th.set .rdx k.toNat ∧ m' = m := hk ▸ Prod.mk.inj (hexec _ rfl)
      refine ⟨rfl, rfl, hin.update rfl _, .inl ⟨14, by simp [hpc], ⟨hat.1, hat.2, hat.3⟩, ?_⟩⟩
      have := hcur hat
      rw [ThreadState.set_regs, Function.update_self]
      omega
  | 14, _ =>
      obtain ⟨hat, hrdx⟩ := he
      obtain ⟨rfl, rfl⟩ : th' = th.set .rax (slabOffset (th.regs .scIdx)) ∧ m' = m :=
        Prod.mk.inj (hexec _ rfl)
      refine ⟨rfl, rfl, hin.update rfl _,
        .inl ⟨15, by simp [hpc], ⟨hat.1, hat.2, hat.3⟩, hrdx, ?_⟩⟩
      rw [ThreadState.set_regs, Function.update_self, hin.scIdx]
      rfl
  | 15, _ =>
      obtain ⟨hat, hrdx, hrax⟩ := he
      obtain ⟨rfl, rfl⟩ : th' = { th.set .rax (Width.long.trunc (th.regs .rax + th.regs .rdx)) with
          flags := .add .long (th.regs .rax) (th.regs .rdx) } ∧ m' = m :=
        Prod.mk.inj (hexec _ rfl)
      refine ⟨rfl, rfl, hin.update rfl _,
        .inl ⟨16, by simp [hpc], ⟨hat.1, hat.2, hat.3⟩, hrdx, ?_⟩⟩
      have := hcur hat
      have := slabOffset_le_total hs.sc_lt.le
      have := slabOffset_numSizeClasses_lt
      rw [hrax, trunc_long (by omega)]
      simp
  | 16, _ =>
      obtain ⟨hat, hrdx, hrax⟩ := he
      obtain ⟨rfl, rfl⟩ : th' = th.set .r9 (m.load (th.address (slotOf .rax)) 8) ∧ m' = m :=
        Prod.mk.inj (hexec _ rfl)
      refine ⟨rfl, rfl, hin.update rfl _,
        .inl ⟨17, by simp [hpc], ⟨hat.1, hat.2, hat.3⟩, hrdx, ?_⟩⟩
      have hcap := (hr th.cpu hat.cpu sc hs.sc_lt).1
      have hslot : th.regs .rdx < slabCapacity sc := by
        have : v.cur = current m' (getSlabs base th.cpu) sc := hv ▸ rfl
        omega
      have hend := slabOffset_le (show sc < numSizeClasses from hs.sc_lt)
      rw [hat.slotOf_eq hs (by omega), hrax, ← hv, ThreadState.set_regs, Function.update_self]
      exact (view_slot hslot).symm
  | 33, _ =>
      obtain ⟨rfl, rfl⟩ : th' = { th with pc := (rseqSlabPop descriptor).locate 12 } ∧ m' = m :=
        Prod.mk.inj (hexec _ rfl)
      exact ⟨rfl, rfl, hin, .inl ⟨0, rfl, trivial⟩⟩

theorem popReading_pc {n : Nat} {v : View} (h : PopReading base count descriptor sc th v n) :
    n < 17 ∨ n = 33 ∨ n = 17 := by
  unfold PopReading at h
  split at h <;> try omega
  unfold Entering at h
  split at h <;> first | omega | exact h.elim

/-- The thread writes the count, and has popped; or it is on a way out, where there is nothing to
pop. -/
theorem pop_exec_early (hs : Setting base count sc) (hr : Represents base count m f)
    (h : popEarly base count descriptor sc th m)
    (hstep : (rseqSlabPop descriptor).step tables m th = some (th', m')) :
    (popEarly base count descriptor sc th' m' ∧ Represents base count m' f) ∨
      popLate base count descriptor sc th' th.cpu ((SlabOp.pop th.cpu sc).onLists count f).1 ∧
        Represents base count m' ((SlabOp.pop th.cpu sc).onLists count f).2 := by
  obtain ⟨hcpu, hin, he⟩ := h
  have hvalid : (SlabOp.pop th.cpu sc).Valid := ⟨hs.sc_pos, hs.sc_lt⟩
  obtain ⟨hans, hrep, -⟩ := apply_spec hr hvalid
  rcases or_assoc.mpr (popReading_pc he) with hn | hn
  · obtain ⟨rfl, hcpu', hin', hnext⟩ := pop_reading_step hs rfl hn hcpu hin hr he hstep
    rcases hnext with ⟨k, hpc, he'⟩ | ⟨hpc, hlt, h0⟩ | ⟨hpc, hle⟩
    · refine .inl ⟨⟨hcpu' ▸ hcpu, hin', ?_⟩, hr⟩
      rw [hcpu', hpc]
      exact he'
    · rw [apply_pop_nil hlt h0] at hans hrep
      refine .inr ⟨⟨0, by decide, hans.symm, hin', ?_⟩, hrep⟩
      rw [hpc]
      exact ⟨rfl, hlt⟩
    · rw [apply_of_le hle] at hans hrep
      refine .inr ⟨⟨0, by decide, hans.symm, hin', ?_⟩, hrep⟩
      rw [hpc]
      exact ⟨rfl, hle⟩
  · rw [hn] at he
    obtain ⟨hat, hrdx, hr9⟩ := he
    obtain ⟨rfl, rfl⟩ : th' = th.next ∧ m' = m.store (th.address currentOf) 2 (th.regs .rdx) :=
      Prod.mk.inj (Sequence.exec_of_step hn hstep _ rfl)
    have hcap := (hr th.cpu hat.cpu sc hs.sc_lt).1
    have hslot : th.regs .rdx < slabCapacity sc := by
      have : (view base sc th.cpu m).cur = current m (getSlabs base th.cpu) sc := rfl
      omega
    rw [apply_pop hat.cpu hrdx] at hans hrep
    rw [hat.currentOf_eq hin hs]
    refine .inr ⟨⟨_, Memory.load_lt .., hans.symm, hin, ?_⟩, hrep⟩
    rw [ThreadState.next_pc, hn]
    refine ⟨hat.rseqCs, ?_, hat.cpu⟩
    rw [ThreadState.next_regs, hr9, view_slot hslot]

/-! ### Behind the commit -/

theorem popDone_pc {n : Nat} (h : PopDone count descriptor th cpu p n) :
    17 < n ∧ n < 33 ∨ n = 34 := by
  unfold PopDone at h
  split at h <;> first | omega | exact h.elim

theorem pop_done_step {n : Nat} (hpc : th.pc = n) (hp : p < 2 ^ 64)
    (hin : (Call.pop sc).Inputs base count th.regs) (hd : PopDone count descriptor th cpu p n)
    (hstep : (rseqSlabPop descriptor).step tables m th = some (th', m')) :
    m' = m ∧ (Call.pop sc).Inputs base count th'.regs ∧
      ∃ k, th'.pc = k ∧ PopDone count descriptor th' cpu p k := by
  have hexec := Sequence.exec_of_step hpc hstep
  match n, popDone_pc hd with
  | 18, _ =>
      obtain ⟨hcs, hr9, hlt⟩ := hd
      obtain ⟨rfl, rfl⟩ := Prod.mk.inj (hexec _ rfl)
      exact ⟨rfl, hin.update rfl _, 19, by simp [hpc], hcs, by simp [Width.trunc], hr9, hlt⟩
  | 19, _ =>
      obtain ⟨-, hrax, hr9, hlt⟩ := hd
      obtain ⟨rfl, rfl⟩ := Prod.mk.inj (hexec _ rfl)
      exact ⟨rfl, hin, 20, by simp [hpc], hrax, hr9, hlt⟩
  | 20, _ =>
      obtain ⟨-, hr9, hlt⟩ := hd
      obtain ⟨rfl, rfl⟩ : th' = th.set .usedFastpath 1 ∧ m' = m := Prod.mk.inj (hexec _ rfl)
      exact ⟨rfl, hin.update rfl _, 21, by simp [hpc], hr9, by simp, hlt⟩
  | 21, _ =>
      obtain ⟨hr9, hused, hlt⟩ := hd
      obtain ⟨rfl, rfl⟩ : th' = th.set .result (Width.quad.trunc (th.regs .r9)) ∧ m' = m :=
        Prod.mk.inj (hexec _ rfl)
      refine ⟨rfl, hin.update rfl _, 22, by simp [hpc], ?_, by simp [hused, hlt]⟩
      rw [ThreadState.set_regs, Function.update_self, hr9, trunc_quad hp]
  | 22, _ =>
      obtain ⟨rfl, rfl⟩ := Prod.mk.inj (hexec _ rfl)
      exact ⟨rfl, hin, 34, rfl, hd⟩
  | 23, _ =>
      obtain ⟨rfl, rfl⟩ := Prod.mk.inj (hexec _ rfl)
      exact ⟨rfl, hin.update rfl _, 24, by simp [hpc], hd⟩
  | 24, _ =>
      obtain ⟨rfl, rfl⟩ := Prod.mk.inj (hexec _ rfl)
      exact ⟨rfl, hin, 25, by simp [hpc], hd⟩
  | 25, _ =>
      obtain ⟨rfl, rfl⟩ : th' = th.set .usedFastpath 1 ∧ m' = m := Prod.mk.inj (hexec _ rfl)
      exact ⟨rfl, hin.update rfl _, 26, by simp [hpc], hd.1, by simp, hd.2⟩
  | 26, _ =>
      obtain ⟨rfl, hused, hlt⟩ := hd
      obtain ⟨rfl, rfl⟩ := Prod.mk.inj (hexec _ rfl)
      exact ⟨rfl, hin.update rfl _, 27, by simp [hpc], by simp [Width.trunc], by simp [hused, hlt]⟩
  | 27, _ =>
      obtain ⟨rfl, rfl⟩ := Prod.mk.inj (hexec _ rfl)
      exact ⟨rfl, hin, 34, rfl, hd⟩
  | 28, _ =>
      obtain ⟨rfl, rfl⟩ := Prod.mk.inj (hexec _ rfl)
      exact ⟨rfl, hin.update rfl _, 29, by simp [hpc], hd⟩
  | 29, _ =>
      obtain ⟨rfl, rfl⟩ := Prod.mk.inj (hexec _ rfl)
      exact ⟨rfl, hin, 30, by simp [hpc], hd⟩
  | 30, _ =>
      obtain ⟨rfl, rfl⟩ := Prod.mk.inj (hexec _ rfl)
      exact ⟨rfl, hin.update rfl _, 31, by simp [hpc], hd.1, by simp [Width.trunc], hd.2⟩
  | 31, _ =>
      obtain ⟨rfl, hused, hle⟩ := hd
      obtain ⟨rfl, rfl⟩ := Prod.mk.inj (hexec _ rfl)
      exact ⟨rfl, hin.update rfl _, 32, by simp [hpc], by simp [Width.trunc],
        by simp [hused, not_lt.mpr hle]⟩
  | 32, _ =>
      obtain ⟨rfl, rfl⟩ := Prod.mk.inj (hexec _ rfl)
      exact ⟨rfl, hin, 34, rfl, hd⟩
  | 34, _ => exact absurd hstep (Sequence.no_step hpc rfl)

/-! ### Interruptions -/

theorem popReading_rseqCs {n : Nat} {v : View} (h : PopReading base count descriptor sc th v n)
    (h₁ : 1 < n) (h₂ : n < 33) : th.rseqCs = descriptor := by
  unfold PopReading at h
  split at h <;> first | omega | exact h.1.rseqCs | skip
  unfold Entering at h
  split at h <;> first | omega | exact h | exact h.1 | exact h.1.rseqCs | exact h.elim

/-- Behind the window nothing that the thread knows depends on `rseq_cs`. -/
theorem popDone_interrupt {n cpu' : Nat} (h : PopDone count descriptor th cpu p n) (h₁ : 19 < n) :
    PopDone count descriptor ((rseqSlabPop descriptor).interrupt cpu' th) cpu p n := by
  unfold PopDone at h ⊢
  split at h <;> first | omega | exact h | exact ⟨rfl, h.2⟩

/-- A thread that has not popped starts again, if it had started. -/
theorem pop_restart (hd : 0 < descriptor) (h : popEarly base count descriptor sc th m)
    (hcpu : cpu < 2 ^ 32) (m' : Memory) :
    popEarly base count descriptor sc ((rseqSlabPop descriptor).interrupt cpu th) m' := by
  obtain ⟨-, hin, he⟩ := h
  refine ⟨hcpu, hin, ?_⟩
  have hplace : th.pc < 21 ∨ th.pc = 33 := by
    have := popReading_pc he
    omega
  have hnext := restart_pc (s := rseqSlabPop descriptor) cpu hd rfl
    (show 21 ≤ 33 by decide) hplace (popReading_rseqCs he)
  rcases hnext with hpc | ⟨hpc, h0 | h1⟩
  · rw [hpc]
    trivial
  · rw [hpc, h0]
    trivial
  · have hrax : th.regs .rax = descriptor := by rwa [h1] at he
    rw [hpc, h1]
    exact hrax

/-- Between the commit and the store that clears `rseq_cs`, a thread that has popped starts again,
too. -/
theorem pop_again (hd : 0 < descriptor) (h : popLate base count descriptor sc th cpu a)
    (hwin : popWindow th = true) {cpu' : Nat} (hcpu : cpu' < 2 ^ 32) (m' : Memory) :
    popEarly base count descriptor sc ((rseqSlabPop descriptor).interrupt cpu' th) m' := by
  obtain ⟨p, -, -, hin, hdone⟩ := h
  refine ⟨hcpu, hin, ?_⟩
  rw [popWindow, Bool.or_eq_true, beq_iff_eq, beq_iff_eq] at hwin
  have hcs : th.rseqCs = descriptor := by
    rcases hwin with hpc | hpc <;> rw [hpc] at hdone <;> exact hdone.1
  have hpc := Sequence.interrupt_inside (s := rseqSlabPop descriptor) cpu' hd hcs (Nat.zero_le _)
    (show th.pc < 21 by omega)
  rw [hpc]
  trivial

/-- Elsewhere it goes on. -/
theorem pop_keep (hd : 0 < descriptor) (h : popLate base count descriptor sc th cpu a)
    (hwin : popWindow th = false) (cpu' : Nat) :
    popLate base count descriptor sc ((rseqSlabPop descriptor).interrupt cpu' th) cpu a := by
  obtain ⟨p, hp, rfl, hin, hdone⟩ := h
  refine ⟨p, hp, rfl, hin, ?_⟩
  rw [popWindow, Bool.or_eq_false_iff, beq_eq_false_iff_ne, beq_eq_false_iff_ne] at hwin
  have hpc := popDone_pc hdone
  have hout : th.rseqCs ≠ descriptor ∨ 21 ≤ th.pc := by
    by_cases hlt : th.pc < 21
    · rw [show th.pc = 20 by omega] at hdone
      exact .inl (by have := hdone.1; omega)
    · exact .inr (not_lt.mp hlt)
  rw [Sequence.interrupt_outside (s := rseqSlabPop descriptor) cpu' hout]
  exact popDone_interrupt hdone (by omega)

/-- What is known of `rseq_slab_pop`. -/
def popOutline (hs : Setting base count sc) (hd : 0 < descriptor) :
    Outline (scene base count descriptor (.pop sc)) fun cpu => .pop cpu sc where
  early := popEarly base count descriptor sc
  late := popLate base count descriptor sc
  window := popWindow
  exec_early h hr hstep := pop_exec_early hs hr h hstep
  exec_late := by
    rintro th th' m m' t c a ⟨p, hp, rfl, hin, hdone⟩ hr hstep
    obtain ⟨rfl, hin', k, hpc, hdone'⟩ := pop_done_step rfl hp hin hdone hstep
    exact ⟨⟨p, hp, rfl, hin', hpc ▸ hdone'⟩, hr⟩
  restart h hcpu := pop_restart hd h hcpu
  again h hwin hcpu := pop_again hd h hwin hcpu
  keep h hwin := pop_keep hd h hwin _
  apart := by
    rintro th m t o ⟨hcpu, hin, he⟩ hr ho hne
    refine ⟨hcpu, hin, ?_⟩
    have hview : view base sc th.cpu (o.apply base count m).2 = view base sc th.cpu m :=
      view_apart hr ho hs.sc_lt hne
    exact hview ▸ he
  early_window := by
    rintro th m ⟨-, -, he⟩
    have := popReading_pc he
    rw [popWindow, Bool.or_eq_false_iff, beq_eq_false_iff_ne, beq_eq_false_iff_ne]
    omega

end TieredAllocator.Rseq
