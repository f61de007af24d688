import TieredAllocator.Allocator.Partition

/-!
# Allocator — frames

What the allocator writes.  Each store of each step lies in the slabs, or inside one object that is
in no client's hands, in no call's and in no cache, before the step or after it
(`Process.InFreeObject`); so no step of the allocator changes a byte of a live block
(`live_untouched`).
-/

namespace TieredAllocator
open Lib

variable {ι : Type} [Fintype ι]

/-! ### The footprint of an action -/

/-- A store into an object that is not out does not meet an object that is. -/
theorem Backend.FreeObject.disjoint {b : Backend} {out : Nat → Multiset Nat}
    {L S : Nat → List SpanId} {o : Multiset Nat} {c d a k j : Nat} {s : SpanId} {y : Span}
    (hb : Inv sizeClass b out L S) (h : FreeObject b S o c a k) (hs : s ∈ S d)
    (hy : b.pageHeap.spans s = some y) (hj : j < y.totalObjects) (hout : d = c → y.addr j ∈ o) :
    a + k ≤ y.addr j ∨ y.addr j + y.size ≤ a := by
  obtain ⟨s', x, hs', hx, i, hix, hfree, h₁, h₂⟩ := h
  by_cases hss : s = s'
  · subst hss
    obtain rfl := Option.some.inj (hx.symm.trans hy)
    obtain rfl := hb.apart c d s hs' hs
    have hij : i ≠ j := fun e => hfree ⟨hix, e ▸ hout rfl⟩
    have := indexToPtr_disjoint x.base x.size hij
    simp only [Span.addr] at *
    omega
  · have := hb.addr_disjoint hs hs' hy hx hss hj hix
    omega

namespace World

variable {w w' : World} {γ : ι → Option Held} {t : ι} {g : Held} {a : Action} {e : Env}

/-- `[x, x + k)` lies in the slabs. -/
def InSlabs (w : World) (x k : Nat) : Prop :=
  w.allocator.perCpuCaches ≤ x ∧
    x + k ≤ w.allocator.perCpuCaches + w.allocator.slabCount * slabStrideBytes

/-- `[x, x + k)` lies inside one object of `b`, and the object is not in `o`. -/
def InObject (b : Backend) (o : Nat → Multiset Nat) (x k : Nat) : Prop :=
  ∃ c < numSizeClasses, ∃ s y i, b.pageHeap.spans s = some y ∧ y.isFree = false ∧
    y.size = (sizeClass c).size ∧ i < y.totalObjects ∧ y.addr i ≤ x ∧ x + k ≤ y.addr i + y.size ∧
    y.addr i ∉ o c

theorem inObject_of_free {b : Backend} {out : Nat → Multiset Nat} {L S : Nat → List SpanId}
    {o : Nat → Multiset Nat} {c x k : Nat} (hb : Backend.Inv sizeClass b out L S)
    (h : Backend.FreeObject b S (o c) c x k) : InObject b o x k := by
  obtain ⟨s, y, hs, hy, i, hiy, hfree, h₁, h₂⟩ := h
  have hsy := hb.serves c s y hs hy
  exact ⟨c, (hb.class_lt hs).2, s, y, i, hy, hsy.used, hsy.size_eq, hiy, h₁, h₂,
    fun ho => hfree ⟨hiy, ho⟩⟩

/-- A block that is handed out does not meet the stores into objects that are not. -/
theorem byte_of_free {b : Backend} {out : Nat → Multiset Nat} {L S : Nat → List SpanId}
    {o : Multiset Nat} {c x : Nat} {m m' : Memory} {k : Block}
    (hb : Backend.Inv sizeClass b out L S) (hw : Memory.Wrote (Backend.FreeObject b S o c) m m')
    (hk : k.ptr ∈ out k.sc) (hsize : k.size ≤ (sizeClass k.sc).size) (ho : k.sc = c → k.ptr ∈ o)
    (h₁ : k.ptr ≤ x) (h₂ : x < k.ptr + k.size) : m'.byte x = m.byte x := by
  obtain ⟨s, y, j, hs, hy, hjy, hptr⟩ := hb.handed _ _ hk
  have hz := (hb.serves _ s y hs hy).size_eq
  refine hw.byte_eq fun d l hfree hin => ?_
  have := hfree.disjoint hb hs hy hjy fun e => hptr ▸ ho e
  omega

variable [DecidableEq ι]

/-- **The footprint of an action.**  Its stores lie in the slabs, or in objects that were not
handed out before it or are not handed out after it; and it changes no byte of a live block. -/
theorem Inv.footprint (hi : w.Inv γ) (hg : γ t = some g) (ha : Pre g a) {r : Answer a}
    (h : w.perform e a = some (r, w')) :
    (Memory.Wrote (fun x k => w.InSlabs x k ∨
        InObject w.allocator.backend (w'.handed (Function.update γ t (some (g.track a r)))) x k ∨
        InObject w'.allocator.backend (w.handed γ) x k)
      w.allocator.backend.mem w'.allocator.backend.mem) ∧
    ∀ b ∈ w.live, ∀ x, b.ptr ≤ x → x < b.ptr + b.size →
      w'.allocator.backend.mem.byte x = w.allocator.backend.mem.byte x := by
  obtain ⟨L, S, hb⟩ := hi.backend
  -- a live block lies in pages the page heap owns
  have howned : ∀ b ∈ w.live, ∀ x, b.ptr ≤ x → x < b.ptr + b.size →
      w.allocator.backend.pageHeap.os.owned (x / pageSize) = true := by
    intro b hmem x h₁ h₂
    obtain ⟨s, y, j, hs, hy, hjy, hptr, -, hsize⟩ := hi.live_object hb hmem
    exact hb.owned_of_addr hs hy hjy (by omega) (by omega)
  have hcell : ∀ {cpu c : Nat} {m' : Memory}, cpu < w.allocator.slabCount → c < numSizeClasses →
      Memory.Wrote (Slabs.Cell w.allocator.perCpuCaches cpu c) w.allocator.backend.mem m' →
      (Memory.Wrote (fun x k => w.InSlabs x k ∨
          InObject w.allocator.backend (w'.handed (Function.update γ t (some (g.track a r)))) x k ∨
          InObject w'.allocator.backend (w.handed γ) x k) w.allocator.backend.mem m') ∧
        ∀ b ∈ w.live, ∀ x, b.ptr ≤ x → x < b.ptr + b.size →
          m'.byte x = w.allocator.backend.mem.byte x := fun hcpu hc hw =>
    ⟨hw.mono fun x k hx => .inl (hx.region hcpu hc), fun b hmem x h₁ h₂ =>
      hi.cell_mem hcpu hc hw x (howned b hmem x h₁ h₂)⟩
  cases a with
  | slabPop sc =>
      rcases Slabs.slabPop_spec hi.bounded ha e.cpu with hres | ⟨q, m', hres, hcpu, -, -, hw⟩
      · simp only [World.perform, Allocator.perform, hres, Option.map_some, Option.some.injEq] at h
        obtain ⟨rfl, rfl⟩ := Prod.mk.inj h
        exact ⟨Memory.Wrote.refl _ _, fun _ _ _ _ _ => rfl⟩
      · simp only [World.perform, Allocator.perform, hres, Option.map_some, Option.some.injEq] at h
        obtain ⟨rfl, rfl⟩ := Prod.mk.inj h
        exact hcell hcpu ha hw
  | slabPush sc ptr =>
      have hlt := (hi.range (mem_handed hg ha.2)).2.2.2
      rcases Slabs.slabPush_spec hi.bounded ha.1 hlt e.cpu with hres | ⟨m', hres, hcpu, -, -, hw⟩
      · simp only [World.perform, Allocator.perform, hres, Option.map_some, Option.some.injEq] at h
        obtain ⟨rfl, rfl⟩ := Prod.mk.inj h
        exact ⟨Memory.Wrote.refl _ _, fun _ _ _ _ _ => rfl⟩
      · simp only [World.perform, Allocator.perform, hres, Option.map_some, Option.some.injEq] at h
        obtain ⟨rfl, rfl⟩ := Prod.mk.inj h
        exact hcell hcpu ha.1 hw
  | removeRange sc n =>
      obtain ⟨rfl, rfl⟩ := Prod.mk.inj (Option.some.inj h)
      exact ⟨Memory.Wrote.refl _ _, fun _ _ _ _ _ => rfl⟩
  | insertRange sc batch =>
      obtain ⟨rfl, rfl⟩ := Prod.mk.inj (Option.some.inj h)
      exact ⟨Memory.Wrote.refl _ _, fun _ _ _ _ _ => rfl⟩
  | spanFor ptr =>
      obtain ⟨rfl, rfl⟩ := Prod.mk.inj (Option.some.inj h)
      exact ⟨Memory.Wrote.refl _ _, fun _ _ _ _ _ => rfl⟩
  | spanSize s =>
      simp only [World.perform, Allocator.perform, Option.map_map, Option.map_eq_some_iff] at h
      obtain ⟨x, -, hx⟩ := h
      obtain ⟨-, rfl⟩ := Prod.mk.inj hx
      exact ⟨Memory.Wrote.refl _ _, fun _ _ _ _ _ => rfl⟩
  | centralAllocate sc =>
      obtain ⟨q, b', L', S', hq, hb', -, hw, -⟩ :=
        Backend.allocate_spec hb (sizeClass_classOk sc) e.kernel
      simp only [World.perform, Allocator.perform, hq, Option.map_some, Option.some.injEq] at h
      obtain ⟨rfl, rfl⟩ := Prod.mk.inj h
      refine ⟨hw.mono fun x k hx => .inr (.inr (inObject_of_free hb' hx)), fun b hmem x h₁ h₂ => ?_⟩
      have hlive := live_handed (γ := γ) hmem
      refine byte_of_free hb' hw ?_ (hi.live_size hmem) (fun e => e ▸ hlive) h₁ h₂
      by_cases hq0 : q = 0
      · rwa [Backend.gain, if_pos hq0]
      · rw [gain_eq _ _ hq0]
        exact Multiset.mem_add.mpr (.inr hlive)
  | centralDeallocate sc s ptr =>
      have hout := mem_handed (w := w) hg ha.1
      obtain ⟨x, b', L', S', -, -, hres, -, hw, -⟩ :=
        Backend.deallocateLocked_spec hb hout ((hi.routed t g hg) ptr s ha.2).2
      simp only [World.perform, Allocator.perform, hres, Option.map_some, Option.some.injEq] at h
      obtain ⟨rfl, rfl⟩ := Prod.mk.inj h
      have hlost : ((w.handed γ) sc).erase ptr = Backend.lose (w.handed γ) sc ptr sc := by
        simp [Backend.lose]
      have hafter := handed_lose hg ha.1 (hi.slabs_congr hb rfl hi.sound hw).2
      rw [hlost, ← hafter] at hw
      refine ⟨hw.mono fun x k hx => .inr (.inl (inObject_of_free hb hx)), fun b hmem y h₁ h₂ => ?_⟩
      -- the block is live after the step too, so it is not the one that comes back
      refine byte_of_free hb hw (live_handed hmem) (hi.live_size hmem) (fun e => ?_) h₁ h₂
      exact e ▸ live_handed (w := { w with allocator := { w.allocator with backend := b' } }) hmem

end World

/-! ### Steps -/

/-- `[x, x + k)` lies inside one object of a span in use, and the object is in its span (free or
not carved) before the step from `u` to `u'`, or after it. -/
def Process.InFreeObject (u u' : Process ι) (x k : Nat) : Prop :=
  ∃ c < numSizeClasses, ∃ s y i,
    (u.state.allocator.backend.pageHeap.spans s = some y ∨
      u'.state.allocator.backend.pageHeap.spans s = some y) ∧
    y.isFree = false ∧ y.size = (sizeClass c).size ∧ i < y.totalObjects ∧
    y.addr i ≤ x ∧ x + k ≤ y.addr i + y.size ∧
    (u.outside c (y.addr i) = 0 ∨ u'.outside c (y.addr i) = 0)

section Steps
variable {u u' : Process ι} {t : ι} {x k : Nat}

/-- An object that is not handed out is in its span. -/
theorem InFreeObject.of_before (h : World.InObject u'.state.allocator.backend
    (u.state.handed (Machine.ghosts u)) x k) : u.InFreeObject u' x k := by
  obtain ⟨c, hc, s, y, i, hy, hused, hsize, hi, h₁, h₂, ho⟩ := h
  refine ⟨c, hc, s, y, i, .inr hy, hused, hsize, hi, h₁, h₂, .inl ?_⟩
  rw [u.outside_eq hc]
  exact Multiset.count_eq_zero_of_notMem ho

theorem InFreeObject.of_after (h : World.InObject u.state.allocator.backend
    (u'.state.handed (Machine.ghosts u')) x k) : u.InFreeObject u' x k := by
  obtain ⟨c, hc, s, y, i, hy, hused, hsize, hi, h₁, h₂, ho⟩ := h
  refine ⟨c, hc, s, y, i, .inl hy, hused, hsize, hi, h₁, h₂, .inr ?_⟩
  rw [u'.outside_eq hc]
  exact Multiset.count_eq_zero_of_notMem ho

variable [DecidableEq ι]

omit [Fintype ι] in
/-- The start of a call stores nothing. -/
theorem start_mem {c : Call} (h : (Process.system ι).step u (.start t c) = some u') :
    u'.state.allocator = u.state.allocator := by
  obtain ⟨-, g, w, hb, rfl⟩ := Machine.step_start h
  cases c with
  | allocate n =>
      obtain ⟨-, rfl⟩ := Prod.mk.inj (Option.some.inj hb)
      rfl
  | deallocate p =>
      obtain ⟨b, -, hw⟩ := Option.map_eq_some_iff.mp hb
      obtain ⟨-, rfl⟩ := Prod.mk.inj hw
      rfl

omit [Fintype ι] in
/-- The return of a call stores nothing. -/
theorem finish_mem (h : (Process.system ι).step u (.finish t) = some u') :
    u'.state.allocator = u.state.allocator := by
  obtain ⟨c, g, v, -, rfl⟩ := Machine.step_finish h
  cases c with
  | allocate n =>
      show (World.finish u.state (.allocate n) v).allocator = _
      rw [World.finish]
      split <;> rfl
  | deallocate p => rfl

end Steps

/-- **Live blocks are not written.**  In each state that any number of threads reach, each store
of each step of the allocator lies in the slabs or inside one object that is free, being freed or
being carved, and the step changes no byte of a live block. -/
theorem live_untouched [DecidableEq ι] {mem : Memory} {foreign : Nat → Bool}
    {slabPage slabCount : Nat} {ls : List (Step ι Call Env ClientWrite)} {u u' : Process ι}
    (r : (Process.system ι).Run (Process.init ι mem foreign slabPage slabCount) ls u)
    {l : Step ι Call Env ClientWrite} (hl : ∀ x, l ≠ .client x)
    (h : (Process.system ι).step u l = some u') :
    Memory.Wrote (fun x k => u.state.InSlabs x k ∨ u.InFreeObject u' x k)
        u.state.allocator.backend.mem u'.state.allocator.backend.mem ∧
      ∀ b ∈ u.state.live, ∀ x, b.ptr ≤ x → x < b.ptr + b.size →
        u'.state.allocator.backend.mem.byte x = u.state.allocator.backend.mem.byte x := by
  obtain ⟨hi, hwp⟩ := ok_of_run r
  -- only actions store
  have hsame : u'.state.allocator = u.state.allocator →
      Memory.Wrote (fun x k => u.state.InSlabs x k ∨ u.InFreeObject u' x k)
        u.state.allocator.backend.mem u'.state.allocator.backend.mem ∧
      ∀ b ∈ u.state.live, ∀ x, b.ptr ≤ x → x < b.ptr + b.size →
        u'.state.allocator.backend.mem.byte x = u.state.allocator.backend.mem.byte x := by
    intro he
    rw [he]
    exact ⟨Memory.Wrote.refl _ _, fun _ _ _ _ _ => rfl⟩
  cases l with
  | start t c => exact hsame (start_mem h)
  | finish t => exact hsame (finish_mem h)
  | client x => exact absurd rfl (hl x)
  | act t e =>
      obtain ⟨c, g, a, p, r, w, ht, hres, rfl⟩ := Machine.step_act h
      have hg : Machine.ghosts u t = some g := by
        rw [Machine.ghosts, ht]
        rfl
      obtain ⟨hpre, -⟩ := hwp t c g _ ht
      obtain ⟨hw, hlive⟩ := hi.footprint hg hpre hres
      refine ⟨hw.mono fun x k hx => ?_, hlive⟩
      rcases hx with hx | hx | hx
      · exact .inl hx
      · refine .inr (InFreeObject.of_after ?_)
        rw [Machine.ghosts_update]
        exact hx
      · exact .inr (InFreeObject.of_before hx)

/-- The pop of the other thread leaves the block of `sampleSteps`. -/
theorem live_untouched_sample : ∃ u u' : Process (Fin 2),
    (⟨196608, 20000⟩ : Block) ∈ u.state.live ∧
      (Process.system (Fin 2)).step u (.act 1 ⟨0, fun _ => none⟩) = some u' ∧
      u'.state.allocator.backend.mem.byte 196616 = u.state.allocator.backend.mem.byte 196616 := by
  obtain ⟨u, u', r, hlive, -, hstep⟩ := sampleSteps_run
  have hmem : (⟨196608, 20000⟩ : Block) ∈ u.state.live := by
    rw [hlive]
    exact List.mem_singleton_self _
  exact ⟨u, u', hmem, hstep, (live_untouched r (fun _ h => by cases h) hstep).2 _ hmem 196616
    (by decide) (by decide)⟩

end TieredAllocator
