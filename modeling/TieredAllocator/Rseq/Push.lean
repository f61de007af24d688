import TieredAllocator.Rseq.Entry

/-!
# Restartable sequences — push

What a thread knows at each instruction of `rseq_slab_push`, as for the pop: up to the commit
`PushReading`, behind it `PushDone`.  Before the commit it stores its pointer above the top of the
stack, where an interruption may leave it behind; it is on no stack there.
-/

namespace TieredAllocator.Rseq
open Lib Slabs

variable {base count descriptor sc ptr : Nat} {th th' : ThreadState Reg} {m m' : Memory}
  {f : Nat → Nat → List Nat} {o : SlabOp} {cpu : Nat} {ok : Bool} {a : SlabAnswer}

/-! ### What the thread knows -/

/-- It has read `v`, and has pushed nothing. -/
def PushReading (base count descriptor sc ptr : Nat) (th : ThreadState Reg) (v : View) :
    (pc : Nat) → Prop
  | 8 => AtSlab base count descriptor th ∧ th.regs .r10 = th.cpu ∧ th.regs .rax = v.cur
  | 9 => AtSlab base count descriptor th ∧ th.regs .r10 = th.cpu ∧ th.regs .rax = v.cur ∧
      th.regs .r9 = slabCapacity sc
  | 10 => AtSlab base count descriptor th ∧ th.regs .r10 = th.cpu ∧ th.regs .rax = v.cur ∧
      th.regs .r9 = slabCapacity sc ∧ th.regs .r11 = th.cpu
  | 11 => AtSlab base count descriptor th ∧ th.regs .rax = v.cur ∧
      th.regs .r9 = slabCapacity sc ∧ th.flags.zero = true
  | 12 => AtSlab base count descriptor th ∧ th.regs .rax = v.cur ∧ th.regs .r9 = slabCapacity sc
  | 13 => AtSlab base count descriptor th ∧ th.regs .rax = v.cur ∧
      th.flags.less = decide (v.cur < slabCapacity sc)
  | 14 => AtSlab base count descriptor th ∧ th.regs .rax = v.cur ∧ v.cur < slabCapacity sc
  | 15 => AtSlab base count descriptor th ∧ th.regs .rax = v.cur ∧ v.cur < slabCapacity sc ∧
      th.regs .r10 = slabOffset sc
  | 16 => AtSlab base count descriptor th ∧ th.regs .rax = v.cur ∧ v.cur < slabCapacity sc ∧
      th.regs .r10 = slabOffset sc + v.cur
  | 17 => AtSlab base count descriptor th ∧ th.regs .rax = v.cur ∧ v.cur < slabCapacity sc ∧
      v.slot v.cur = ptr
  | 18 => AtSlab base count descriptor th ∧ th.regs .rax = v.cur + 1 ∧ v.cur < slabCapacity sc ∧
      v.slot v.cur = ptr
  -- the abort handler
  | 34 => True
  | pc => Entering base count descriptor th pc

/-- It has pushed on the CPU `cpu`, or found no room there, as `ok` says. -/
def PushDone (count descriptor : Nat) (th : ThreadState Reg) (cpu : Nat) (ok : Bool) :
    (pc : Nat) → Prop
  | 19 => th.rseqCs = descriptor ∧ ok = true ∧ cpu < count
  | 20 => th.rseqCs = descriptor ∧ th.regs .rax = 0 ∧ ok = true ∧ cpu < count
  | 21 => th.rseqCs = 0 ∧ ok = true ∧ cpu < count
  | 22 => ok = true ∧ th.regs .usedFastpath = 1 ∧ cpu < count
  | 24 | 25 | 26 => ok = false ∧ cpu < count
  | 27 => ok = false ∧ th.regs .usedFastpath = 1 ∧ cpu < count
  | 29 | 30 | 31 => ok = false ∧ count ≤ cpu
  | 32 => ok = false ∧ th.regs .usedFastpath = 0 ∧ count ≤ cpu
  | 23 | 28 | 33 | 35 => (th.regs .ok != 0) = ok ∧ (th.regs .usedFastpath ≠ 0 ↔ cpu < count)
  | _ => False

def pushEarly (base count descriptor sc ptr : Nat) (th : ThreadState Reg) (m : Memory) : Prop :=
  th.cpu < 2 ^ 32 ∧ (Call.push sc ptr).Inputs base count th.regs ∧
    PushReading base count descriptor sc ptr th (view base sc th.cpu m) th.pc

def pushLate (base count descriptor sc ptr : Nat) (th : ThreadState Reg) (cpu : Nat)
    (a : SlabAnswer) : Prop :=
  ∃ ok, a = .pushed ok ∧ (Call.push sc ptr).Inputs base count th.regs ∧
    PushDone count descriptor th cpu ok th.pc

/-- Between the commit and the store that clears `rseq_cs`. -/
def pushWindow (th : ThreadState Reg) : Bool := th.pc == 19 || th.pc == 20

/-! ### The operation -/

theorem apply_push_full (hcpu : cpu < count)
    (h : slabCapacity sc ≤ current m (getSlabs base cpu) sc) :
    (SlabOp.push cpu sc ptr).apply base count m = (.pushed false, m) := by
  simp [SlabOp.apply, slabPush, getSlabsChecked, not_le.mpr hcpu, fallbackDeallocate, not_lt.mpr h]

theorem apply_push (hcpu : cpu < count) (h : current m (getSlabs base cpu) sc < slabCapacity sc) :
    (SlabOp.push cpu sc ptr).apply base count m = (.pushed true,
      setCurrent (setPointer m (getSlabs base cpu)
          (slabOffset sc + current m (getSlabs base cpu) sc) ptr)
        (getSlabs base cpu) sc (current m (getSlabs base cpu) sc + 1)) := by
  simp [SlabOp.apply, slabPush, getSlabsChecked, not_le.mpr hcpu, fallbackDeallocate, h]

/-! ### Up to the commit -/

theorem pushReading_of_entering {n : Nat} {v : View} (hn : n ≤ 7)
    (h : Entering base count descriptor th n) :
    PushReading base count descriptor sc ptr th v n := by
  match n, hn with
  | 0, _ | 1, _ | 2, _ | 3, _ | 4, _ | 5, _ | 6, _ | 7, _ => exact h

theorem entering_of_pushReading {n : Nat} {v : View} (hn : n ≤ 7)
    (h : PushReading base count descriptor sc ptr th v n) :
    Entering base count descriptor th n := by
  match n, hn with
  | 0, _ | 1, _ | 2, _ | 3, _ | 4, _ | 5, _ | 6, _ | 7, _ => exact h

/-- The instructions that only read lead on, or to one of the two ways out. -/
theorem push_reading_step {n : Nat} (hs : Setting base count sc) (hpc : th.pc = n)
    (hn : n < 16 ∨ n = 17 ∨ n = 34) (hcpu : th.cpu < 2 ^ 32)
    (hin : (Call.push sc ptr).Inputs base count th.regs) (hr : Represents base count m f)
    (he : PushReading base count descriptor sc ptr th (view base sc th.cpu m) n)
    (hstep : (rseqSlabPush descriptor).step tables m th = some (th', m')) :
    m' = m ∧ th'.cpu = th.cpu ∧ (Call.push sc ptr).Inputs base count th'.regs ∧
      ((∃ k, th'.pc = k ∧
          PushReading base count descriptor sc ptr th' (view base sc th.cpu m) k) ∨
        (th'.pc = 24 ∧ th.cpu < count ∧ slabCapacity sc ≤ (view base sc th.cpu m).cur) ∨
        (th'.pc = 29 ∧ count ≤ th.cpu)) := by
  have hexec := Sequence.exec_of_step hpc hstep
  by_cases hlt : n < 7
  · have hcode : ∀ n < 7, (rseqSlabPush descriptor).code[n]? = (prologue 27)[n]? := by
      intro n hn
      interval_cases n <;> rfl
    obtain ⟨rfl, hcpu', hin', h⟩ := enter_step hs hcode hpc hlt hcpu hin
      (entering_of_pushReading hlt.le he) hstep
    refine ⟨rfl, hcpu', hin', ?_⟩
    rcases h with ⟨hpc', he'⟩ | ⟨hpc', hle⟩
    · exact .inl ⟨_, hpc', pushReading_of_entering hlt he'⟩
    · exact .inr (.inr ⟨hpc', hle⟩)
  generalize hv : view base sc th.cpu m = v at he ⊢
  have hcap := slabCapacity_lt hs.sc_lt
  have hcur : AtSlab base count descriptor th → v.cur ≤ slabCapacity sc := fun hat => by
    rw [← hv]
    exact (hr th.cpu hat.cpu sc hs.sc_lt).1
  match n, hn with
  | 7, _ =>
      obtain ⟨hat, hr10⟩ := he
      obtain ⟨rfl, rfl⟩ : th' = th.set .rax (m.load (th.address currentOf) 2) ∧ m' = m :=
        Prod.mk.inj (hexec _ rfl)
      refine ⟨rfl, rfl, hin.update rfl _, .inl ⟨8, by simp [hpc], ⟨hat.1, hat.2, hat.3⟩, hr10, ?_⟩⟩
      rw [ThreadState.set_regs, Function.update_self, hat.currentOf_eq hin hs, ← hv]
      rfl
  | 8, _ =>
      obtain ⟨hat, hr10, hrax⟩ := he
      obtain ⟨rfl, rfl⟩ : th' = th.set .r9 (slabCapacity (th.regs .scIdx)) ∧ m' = m :=
        Prod.mk.inj (hexec _ rfl)
      refine ⟨rfl, rfl, hin.update rfl _,
        .inl ⟨9, by simp [hpc], ⟨hat.1, hat.2, hat.3⟩, hr10, hrax, ?_⟩⟩
      rw [ThreadState.set_regs, Function.update_self, hin.scIdx]
      rfl
  | 9, _ =>
      obtain ⟨hat, hr10, hrax, hr9⟩ := he
      obtain ⟨rfl, rfl⟩ : th' = th.set .r11 th.cpu ∧ m' = m := Prod.mk.inj (hexec _ rfl)
      exact ⟨rfl, rfl, hin.update rfl _,
        .inl ⟨10, by simp [hpc], ⟨hat.1, hat.2, hat.3⟩, hr10, hrax, hr9, by simp⟩⟩
  | 10, _ =>
      obtain ⟨hat, hr10, hrax, hr9, hr11⟩ := he
      obtain ⟨rfl, rfl⟩ : th' = { th.next with
          flags := .sub .long (th.regs .r10) (th.regs .r11) } ∧ m' = m := Prod.mk.inj (hexec _ rfl)
      refine ⟨rfl, rfl, hin, .inl ⟨11, by simp [hpc], ⟨hat.1, hat.2, hat.3⟩, hrax, hr9, ?_⟩⟩
      exact decide_eq_true (by rw [hr10, hr11])
  | 11, _ =>
      obtain ⟨hat, hrax, hr9, hzero⟩ := he
      have h : (th', m') = (if !th.flags.zero then
          { th with pc := (rseqSlabPush descriptor).locate 22 } else th.next, m) := hexec _ rfl
      rw [hzero] at h
      obtain ⟨rfl, rfl⟩ : th' = th.next ∧ m' = m := Prod.mk.inj h
      exact ⟨rfl, rfl, hin, .inl ⟨12, by simp [hpc], ⟨hat.1, hat.2, hat.3⟩, hrax, hr9⟩⟩
  | 12, _ =>
      obtain ⟨hat, hrax, hr9⟩ := he
      obtain ⟨rfl, rfl⟩ : th' = { th.next with
          flags := .sub .long (th.regs .r9) (th.regs .rax) } ∧ m' = m := Prod.mk.inj (hexec _ rfl)
      refine ⟨rfl, rfl, hin, .inl ⟨13, by simp [hpc], ⟨hat.1, hat.2, hat.3⟩, hrax, ?_⟩⟩
      have := hcur hat
      refine decide_eq_decide.mpr ?_
      rw [hrax, hr9, signed_long (by omega), signed_long (by omega)]
      exact Nat.cast_lt
  | 13, _ =>
      obtain ⟨hat, hrax, hless⟩ := he
      have h : (th', m') = (if !th.flags.less then
          { th with pc := (rseqSlabPush descriptor).locate 25 } else th.next, m) := hexec _ rfl
      rw [hless] at h
      by_cases hroom : v.cur < slabCapacity sc
      · rw [decide_eq_true hroom] at h
        obtain ⟨rfl, rfl⟩ : th' = th.next ∧ m' = m := Prod.mk.inj h
        exact ⟨rfl, rfl, hin, .inl ⟨14, by simp [hpc], ⟨hat.1, hat.2, hat.3⟩, hrax, hroom⟩⟩
      · rw [decide_eq_false hroom] at h
        obtain ⟨rfl, rfl⟩ := Prod.mk.inj h
        exact ⟨rfl, rfl, hin, .inr (.inl ⟨rfl, hat.cpu, not_lt.mp hroom⟩)⟩
  | 14, _ =>
      obtain ⟨hat, hrax, hroom⟩ := he
      obtain ⟨rfl, rfl⟩ : th' = th.set .r10 (slabOffset (th.regs .scIdx)) ∧ m' = m :=
        Prod.mk.inj (hexec _ rfl)
      refine ⟨rfl, rfl, hin.update rfl _,
        .inl ⟨15, by simp [hpc], ⟨hat.1, hat.2, hat.3⟩, hrax, hroom, ?_⟩⟩
      rw [ThreadState.set_regs, Function.update_self, hin.scIdx]
      rfl
  | 15, _ =>
      obtain ⟨hat, hrax, hroom, hr10⟩ := he
      obtain ⟨rfl, rfl⟩ : th' = { th.set .r10 (Width.long.trunc (th.regs .r10 + th.regs .rax)) with
          flags := .add .long (th.regs .r10) (th.regs .rax) } ∧ m' = m :=
        Prod.mk.inj (hexec _ rfl)
      refine ⟨rfl, rfl, hin.update rfl _,
        .inl ⟨16, by simp [hpc], ⟨hat.1, hat.2, hat.3⟩, hrax, hroom, ?_⟩⟩
      have := slabOffset_le_total hs.sc_lt.le
      have := slabOffset_numSizeClasses_lt
      rw [hr10, hrax, trunc_long (by omega)]
      simp
  | 17, _ =>
      obtain ⟨hat, hrax, hroom, hslot⟩ := he
      obtain ⟨rfl, rfl⟩ : th' = { th.set .rax (Width.long.trunc (th.regs .rax + 1)) with
          flags := { Flags.add .long (th.regs .rax) 1 with carry := th.flags.carry } } ∧ m' = m :=
        Prod.mk.inj (hexec _ rfl)
      refine ⟨rfl, rfl, hin.update rfl _,
        .inl ⟨18, by simp [hpc], ⟨hat.1, hat.2, hat.3⟩, ?_, hroom, hslot⟩⟩
      rw [hrax, trunc_long (by omega)]
      simp
  | 34, _ =>
      obtain ⟨rfl, rfl⟩ : th' = { th with pc := (rseqSlabPush descriptor).locate 22 } ∧ m' = m :=
        Prod.mk.inj (hexec _ rfl)
      exact ⟨rfl, rfl, hin, .inl ⟨0, rfl, trivial⟩⟩

theorem pushReading_pc {n : Nat} {v : View} (h : PushReading base count descriptor sc ptr th v n) :
    (n < 16 ∨ n = 17 ∨ n = 34) ∨ n = 16 ∨ n = 18 := by
  unfold PushReading at h
  split at h <;> try omega
  unfold Entering at h
  split at h <;> first | omega | exact h.elim

/-- The thread stores its pointer above the top. -/
theorem push_slot_step (hs : Setting base count sc) (hptr : ptr < 2 ^ 64)
    (hr : Represents base count m f) (h : pushEarly base count descriptor sc ptr th m)
    (hpc : th.pc = 16) (hstep : (rseqSlabPush descriptor).step tables m th = some (th', m')) :
    pushEarly base count descriptor sc ptr th' m' ∧ Represents base count m' f := by
  obtain ⟨hcpu, hin, he⟩ := h
  rw [hpc] at he
  obtain ⟨hat, hrax, hroom, hr10⟩ := he
  obtain ⟨rfl, rfl⟩ : th' = th.next ∧
      m' = m.store (th.address (slotOf .r10)) 8 (th.regs .ptr) :=
    Prod.mk.inj (Sequence.exec_of_step hpc hstep _ rfl)
  set k := current m (getSlabs base th.cpu) sc
  have hr10 : th.regs .r10 = slabOffset sc + k := hr10
  have hroom : k < slabCapacity sc := hroom
  have hend := slabOffset_le (show sc < numSizeClasses from hs.sc_lt)
  rw [hat.slotOf_eq hs (by omega), hr10, hin.ptr sc ptr rfl]
  let m₁ := setPointer m (getSlabs base th.cpu) (slabOffset sc + k) ptr
  have hcur : (view base sc th.cpu m₁).cur = k := current_setPointer hs.sc_lt
  refine ⟨⟨hcpu, hin, ?_⟩, hr.store_slot hat.cpu hs.sc_lt hroom⟩
  rw [ThreadState.next_pc, hpc]
  show PushReading base count descriptor sc ptr th.next (view base sc th.cpu m₁) 17
  refine ⟨⟨hat.1, hat.2, hat.3⟩, hrax.trans hcur.symm, hcur.symm ▸ hroom, ?_⟩
  rw [hcur, view_slot hroom]
  exact pointer_setPointer hptr

/-- The thread writes the count, and has pushed. -/
theorem push_commit_step (hs : Setting base count sc) (hr : Represents base count m f)
    (hvalid : (SlabOp.push th.cpu sc ptr).Valid)
    (h : pushEarly base count descriptor sc ptr th m) (hpc : th.pc = 18)
    (hstep : (rseqSlabPush descriptor).step tables m th = some (th', m')) :
    pushLate base count descriptor sc ptr th' th.cpu
        ((SlabOp.push th.cpu sc ptr).onLists count f).1 ∧
      Represents base count m' ((SlabOp.push th.cpu sc ptr).onLists count f).2 := by
  obtain ⟨hcpu, hin, he⟩ := h
  obtain ⟨hans, hrep, -⟩ := apply_spec hr hvalid
  rw [hpc] at he
  obtain ⟨hat, hrax, hroom, hslot⟩ := he
  obtain ⟨rfl, rfl⟩ : th' = th.next ∧ m' = m.store (th.address currentOf) 2 (th.regs .rax) :=
    Prod.mk.inj (Sequence.exec_of_step hpc hstep _ rfl)
  set k := current m (getSlabs base th.cpu) sc with hk
  have hrax : th.regs .rax = k + 1 := hrax
  have hroom : k < slabCapacity sc := hroom
  have hslot : pointer m (getSlabs base th.cpu) (slabOffset sc + k) = ptr :=
    (view_slot hroom).symm.trans hslot
  rw [apply_push hat.cpu hroom] at hans hrep
  rw [hat.currentOf_eq hin hs, hrax]
  refine ⟨⟨true, hans.symm, hin, ?_⟩, hrep.congr fun x => ?_⟩
  · rw [ThreadState.next_pc, hpc]
    exact ⟨hat.rseqCs, rfl, hat.cpu⟩
  · -- the pointer is in its slot already
    have hsame : (setPointer m (getSlabs base th.cpu) (slabOffset sc + k) ptr).byte x = m.byte x :=
      hslot ▸ Memory.byte_store_load fun _ => rfl
    exact Memory.store_byte_congr hsame.symm

theorem push_exec_early (hs : Setting base count sc) (hptr : ptr < 2 ^ 64)
    (hr : Represents base count m f) (h : pushEarly base count descriptor sc ptr th m)
    (hstep : (rseqSlabPush descriptor).step tables m th = some (th', m')) :
    (pushEarly base count descriptor sc ptr th' m' ∧ Represents base count m' f) ∨
      pushLate base count descriptor sc ptr th' th.cpu
          ((SlabOp.push th.cpu sc ptr).onLists count f).1 ∧
        Represents base count m' ((SlabOp.push th.cpu sc ptr).onLists count f).2 := by
  have hvalid : (SlabOp.push th.cpu sc ptr).Valid := ⟨hs.sc_pos, hs.sc_lt, hptr⟩
  obtain ⟨hcpu, hin, he⟩ := h
  obtain ⟨hans, hrep, -⟩ := apply_spec hr hvalid
  rcases pushReading_pc he with hn | hn | hn
  · obtain ⟨rfl, hcpu', hin', hnext⟩ := push_reading_step hs rfl hn hcpu hin hr he hstep
    rcases hnext with ⟨k, hpc, he'⟩ | ⟨hpc, hlt, hfull⟩ | ⟨hpc, hle⟩
    · refine .inl ⟨⟨hcpu' ▸ hcpu, hin', ?_⟩, hr⟩
      rw [hcpu', hpc]
      exact he'
    · rw [apply_push_full hlt hfull] at hans hrep
      refine .inr ⟨⟨false, hans.symm, hin', ?_⟩, hrep⟩
      rw [hpc]
      exact ⟨rfl, hlt⟩
    · rw [apply_of_le hle] at hans hrep
      refine .inr ⟨⟨false, hans.symm, hin', ?_⟩, hrep⟩
      rw [hpc]
      exact ⟨rfl, hle⟩
  · exact .inl (push_slot_step hs hptr hr ⟨hcpu, hin, he⟩ hn hstep)
  · exact .inr (push_commit_step hs hr hvalid ⟨hcpu, hin, he⟩ hn hstep)

/-! ### Behind the commit -/

theorem pushDone_pc {n : Nat} (h : PushDone count descriptor th cpu ok n) :
    18 < n ∧ n < 34 ∨ n = 35 := by
  unfold PushDone at h
  split at h <;> first | omega | exact h.elim

theorem push_done_step {n : Nat} (hpc : th.pc = n)
    (hin : (Call.push sc ptr).Inputs base count th.regs)
    (hd : PushDone count descriptor th cpu ok n)
    (hstep : (rseqSlabPush descriptor).step tables m th = some (th', m')) :
    m' = m ∧ (Call.push sc ptr).Inputs base count th'.regs ∧
      ∃ k, th'.pc = k ∧ PushDone count descriptor th' cpu ok k := by
  have hexec := Sequence.exec_of_step hpc hstep
  match n, pushDone_pc hd with
  | 19, _ =>
      obtain ⟨hcs, rfl, hlt⟩ := hd
      obtain ⟨rfl, rfl⟩ := Prod.mk.inj (hexec _ rfl)
      exact ⟨rfl, hin.update rfl _, 20, by simp [hpc], hcs, by simp [Width.trunc], rfl, hlt⟩
  | 20, _ =>
      obtain ⟨-, hrax, rfl, hlt⟩ := hd
      obtain ⟨rfl, rfl⟩ := Prod.mk.inj (hexec _ rfl)
      exact ⟨rfl, hin, 21, by simp [hpc], hrax, rfl, hlt⟩
  | 21, _ =>
      obtain ⟨-, rfl, hlt⟩ := hd
      obtain ⟨rfl, rfl⟩ : th' = th.set .usedFastpath 1 ∧ m' = m := Prod.mk.inj (hexec _ rfl)
      exact ⟨rfl, hin.update rfl _, 22, by simp [hpc], rfl, by simp, hlt⟩
  | 22, _ =>
      obtain ⟨rfl, hused, hlt⟩ := hd
      obtain ⟨rfl, rfl⟩ : th' = th.set .ok 1 ∧ m' = m := Prod.mk.inj (hexec _ rfl)
      exact ⟨rfl, hin.update rfl _, 23, by simp [hpc], by simp, by simp [hused, hlt]⟩
  | 23, _ =>
      obtain ⟨rfl, rfl⟩ := Prod.mk.inj (hexec _ rfl)
      exact ⟨rfl, hin, 35, rfl, hd⟩
  | 24, _ =>
      obtain ⟨rfl, rfl⟩ := Prod.mk.inj (hexec _ rfl)
      exact ⟨rfl, hin.update rfl _, 25, by simp [hpc], hd⟩
  | 25, _ =>
      obtain ⟨rfl, rfl⟩ := Prod.mk.inj (hexec _ rfl)
      exact ⟨rfl, hin, 26, by simp [hpc], hd⟩
  | 26, _ =>
      obtain ⟨rfl, rfl⟩ : th' = th.set .usedFastpath 1 ∧ m' = m := Prod.mk.inj (hexec _ rfl)
      exact ⟨rfl, hin.update rfl _, 27, by simp [hpc], hd.1, by simp, hd.2⟩
  | 27, _ =>
      obtain ⟨rfl, hused, hlt⟩ := hd
      obtain ⟨rfl, rfl⟩ := Prod.mk.inj (hexec _ rfl)
      exact ⟨rfl, hin.update rfl _, 28, by simp [hpc], by simp [Width.trunc], by simp [hused, hlt]⟩
  | 28, _ =>
      obtain ⟨rfl, rfl⟩ := Prod.mk.inj (hexec _ rfl)
      exact ⟨rfl, hin, 35, rfl, hd⟩
  | 29, _ =>
      obtain ⟨rfl, rfl⟩ := Prod.mk.inj (hexec _ rfl)
      exact ⟨rfl, hin.update rfl _, 30, by simp [hpc], hd⟩
  | 30, _ =>
      obtain ⟨rfl, rfl⟩ := Prod.mk.inj (hexec _ rfl)
      exact ⟨rfl, hin, 31, by simp [hpc], hd⟩
  | 31, _ =>
      obtain ⟨rfl, rfl⟩ := Prod.mk.inj (hexec _ rfl)
      exact ⟨rfl, hin.update rfl _, 32, by simp [hpc], hd.1, by simp [Width.trunc], hd.2⟩
  | 32, _ =>
      obtain ⟨rfl, hused, hle⟩ := hd
      obtain ⟨rfl, rfl⟩ := Prod.mk.inj (hexec _ rfl)
      exact ⟨rfl, hin.update rfl _, 33, by simp [hpc], by simp [Width.trunc],
        by simp [hused, not_lt.mpr hle]⟩
  | 33, _ =>
      obtain ⟨rfl, rfl⟩ := Prod.mk.inj (hexec _ rfl)
      exact ⟨rfl, hin, 35, rfl, hd⟩
  | 35, _ => exact absurd hstep (Sequence.no_step hpc rfl)

/-! ### Interruptions -/

theorem pushReading_rseqCs {n : Nat} {v : View}
    (h : PushReading base count descriptor sc ptr th v n) (h₁ : 1 < n) (h₂ : n < 34) :
    th.rseqCs = descriptor := by
  unfold PushReading at h
  split at h <;> first | omega | exact h.1.rseqCs | skip
  unfold Entering at h
  split at h <;> first | omega | exact h | exact h.1 | exact h.1.rseqCs | exact h.elim

/-- Behind the window nothing that the thread knows depends on `rseq_cs`. -/
theorem pushDone_interrupt {n cpu' : Nat} (h : PushDone count descriptor th cpu ok n)
    (h₁ : 20 < n) :
    PushDone count descriptor ((rseqSlabPush descriptor).interrupt cpu' th) cpu ok n := by
  unfold PushDone at h ⊢
  split at h <;> first | omega | exact h | exact ⟨rfl, h.2⟩

/-- A thread that has not pushed starts again, if it had started. -/
theorem push_restart (hd : 0 < descriptor) (h : pushEarly base count descriptor sc ptr th m)
    (hcpu : cpu < 2 ^ 32) (m' : Memory) :
    pushEarly base count descriptor sc ptr ((rseqSlabPush descriptor).interrupt cpu th) m' := by
  obtain ⟨-, hin, he⟩ := h
  refine ⟨hcpu, hin, ?_⟩
  have hplace : th.pc < 22 ∨ th.pc = 34 := by
    have := pushReading_pc he
    omega
  have hnext := restart_pc (s := rseqSlabPush descriptor) cpu hd rfl
    (show 22 ≤ 34 by decide) hplace (pushReading_rseqCs he)
  rcases hnext with hpc | ⟨hpc, h0 | h1⟩
  · rw [hpc]
    trivial
  · rw [hpc, h0]
    trivial
  · have hrax : th.regs .rax = descriptor := by rwa [h1] at he
    rw [hpc, h1]
    exact hrax

/-- Between the commit and the store that clears `rseq_cs`, a thread that has pushed starts again,
too. -/
theorem push_again (hd : 0 < descriptor) (h : pushLate base count descriptor sc ptr th cpu a)
    (hwin : pushWindow th = true) {cpu' : Nat} (hcpu : cpu' < 2 ^ 32) (m' : Memory) :
    pushEarly base count descriptor sc ptr ((rseqSlabPush descriptor).interrupt cpu' th) m' := by
  obtain ⟨ok, -, hin, hdone⟩ := h
  refine ⟨hcpu, hin, ?_⟩
  rw [pushWindow, Bool.or_eq_true, beq_iff_eq, beq_iff_eq] at hwin
  have hcs : th.rseqCs = descriptor := by
    rcases hwin with hpc | hpc <;> rw [hpc] at hdone <;> exact hdone.1
  have hpc := Sequence.interrupt_inside (s := rseqSlabPush descriptor) cpu' hd hcs (Nat.zero_le _)
    (show th.pc < 22 by omega)
  rw [hpc]
  trivial

/-- Elsewhere it goes on. -/
theorem push_keep (hd : 0 < descriptor) (h : pushLate base count descriptor sc ptr th cpu a)
    (hwin : pushWindow th = false) (cpu' : Nat) :
    pushLate base count descriptor sc ptr ((rseqSlabPush descriptor).interrupt cpu' th) cpu a := by
  obtain ⟨ok, rfl, hin, hdone⟩ := h
  refine ⟨ok, rfl, hin, ?_⟩
  rw [pushWindow, Bool.or_eq_false_iff, beq_eq_false_iff_ne, beq_eq_false_iff_ne] at hwin
  have hpc := pushDone_pc hdone
  have hout : th.rseqCs ≠ descriptor ∨ 22 ≤ th.pc := by
    by_cases hlt : th.pc < 22
    · rw [show th.pc = 21 by omega] at hdone
      exact .inl (by have := hdone.1; omega)
    · exact .inr (not_lt.mp hlt)
  rw [Sequence.interrupt_outside (s := rseqSlabPush descriptor) cpu' hout]
  exact pushDone_interrupt hdone (by omega)

/-- What is known of `rseq_slab_push`. -/
def pushOutline (hs : Setting base count sc) (hptr : ptr < 2 ^ 64) (hd : 0 < descriptor) :
    Outline (scene base count descriptor (.push sc ptr)) fun cpu => .push cpu sc ptr where
  early := pushEarly base count descriptor sc ptr
  late := pushLate base count descriptor sc ptr
  window := pushWindow
  exec_early h hr hstep := push_exec_early hs hptr hr h hstep
  exec_late := by
    rintro th th' m m' t c a ⟨ok, rfl, hin, hdone⟩ hr hstep
    obtain ⟨rfl, hin', k, hpc, hdone'⟩ := push_done_step rfl hin hdone hstep
    exact ⟨⟨ok, rfl, hin', hpc ▸ hdone'⟩, hr⟩
  restart h hcpu := push_restart hd h hcpu
  again h hwin hcpu := push_again hd h hwin hcpu
  keep h hwin := push_keep hd h hwin _
  apart := by
    rintro th m t o ⟨hcpu, hin, he⟩ hr ho hne
    refine ⟨hcpu, hin, ?_⟩
    have hview : view base sc th.cpu (o.apply base count m).2 = view base sc th.cpu m :=
      view_apart hr ho hs.sc_lt hne
    exact hview ▸ he
  early_window := by
    rintro th m ⟨-, -, he⟩
    have := pushReading_pc he
    rw [pushWindow, Bool.or_eq_false_iff, beq_eq_false_iff_ne, beq_eq_false_iff_ne]
    omega

end TieredAllocator.Rseq
