import TieredAllocator.Lib.Heaps
import TieredAllocator.Allocator.Frames

/-!
# Allocator — what the clients see

The allocator with its threads refines `Heap.system`, the heap whose blocks have bytes of their own
(`clients_refine`): the caches, the lists, the spans and the other clients do not show.  Each call
is matched where the client takes part in it: a block is gone when `deallocate` is called on it, and
there when `allocate` returns it; what the calls do in between is matched by no step at all.
-/

namespace TieredAllocator
open Lib

variable {ι : Type}

def Call.request : Call → Heap.Request
  | .allocate inputSize => .allocate inputSize
  | .deallocate mem => .release mem

namespace Process

/-- What a thread has asked for. -/
def request : Thread Call Result Action Answer Held → Option Heap.Request
  | .idle => none
  | .busy c _ _ => some c.request

/-- What the step shows to the clients. -/
def shown (u : Process ι) : Step ι Call Env ClientWrite → Option (Heap.Shown ι)
  | .start t c => some (.ask t c.request)
  | .act _ _ => none
  | .finish t => match u.threads t with
      | .busy (.allocate _) _ (.done p) => some (.answer t (some p))
      | .busy (.deallocate _) _ (.done _) => some (.answer t none)
      | _ => none
  | .client x => some (.write x.block.ptr x.offset (Memory.bytesOf x.len x.value))

/-- The clients' view of a state. -/
structure Clients (u : Process ι) (c : Heap.Clients ι) : Prop where
  asked : ∀ t, c.asked t = request (u.threads t)
  distinct : (u.state.live.map Block.ptr).Nodup
  block : ∀ p n, (⟨p, n⟩ : Block) ∈ u.state.live ↔ ∃ bs, c.heap p = some bs ∧ bs.length = n
  apart : c.heap.Apart
  holds : c.heap.Holds u.state.allocator.backend.mem

namespace Clients

variable {u : Process ι} {c : Heap.Clients ι} {b : Block} {p n : Nat} {bs : List UInt8}

theorem bytes (h : u.Clients c) (hb : b ∈ u.state.live) :
    ∃ bs, c.heap b.ptr = some bs ∧ bs.length = b.size := (h.block b.ptr b.size).mp hb

theorem size_eq (h : u.Clients c) (hb : b ∈ u.state.live) (hp : c.heap b.ptr = some bs) :
    bs.length = b.size := by
  obtain ⟨bs', hbs, hlen⟩ := h.bytes hb
  rw [hbs] at hp
  exact Option.some.inj hp ▸ hlen

/-- The live block at an address is the only one. -/
theorem eq_of_ptr (h : u.Clients c) {b' : Block} (hb : b ∈ u.state.live) (hb' : b' ∈ u.state.live)
    (hptr : b.ptr = b'.ptr) : b = b' := by
  obtain ⟨bs, hbs, hlen⟩ := h.bytes hb
  rw [hptr] at hbs
  have hsize := hlen.symm.trans (h.size_eq hb' hbs)
  cases b
  cases b'
  simp only at hptr hsize
  rw [hptr, hsize]

/-- A step of the allocator that the clients do not see. -/
theorem quiet (h : u.Clients c) {u' : Process ι} (hlive : u'.state.live = u.state.live)
    (hrequest : ∀ t, request (u'.threads t) = request (u.threads t))
    (hmem : ∀ b ∈ u.state.live, ∀ x, b.ptr ≤ x → x < b.ptr + b.size →
      u'.state.allocator.backend.mem.byte x = u.state.allocator.backend.mem.byte x) :
    u'.Clients c where
  asked t := (h.asked t).trans (hrequest t).symm
  distinct := hlive ▸ h.distinct
  block p n := hlive ▸ h.block p n
  apart := h.apart
  holds := h.holds.congr fun p bs hp => hmem ⟨p, bs.length⟩ ((h.block p _).mpr ⟨bs, hp, rfl⟩)

/-- A block is given up. -/
theorem gone (h : u.Clients c) (hb : b ∈ u.state.live) :
    ((u.state.live.erase b).map Block.ptr).Nodup ∧
      ∀ p n, (⟨p, n⟩ : Block) ∈ u.state.live.erase b ↔
        ∃ bs, Function.update c.heap b.ptr none p = some bs ∧ bs.length = n := by
  refine ⟨h.distinct.sublist (List.erase_sublist.map _), fun p n => ?_⟩
  rw [(List.Nodup.of_map _ h.distinct).mem_erase_iff]
  by_cases hp : p = b.ptr
  · subst hp
    rw [Function.update_self]
    refine iff_of_false ?_ ?_
    · rintro ⟨hne, hmem⟩
      exact hne (h.eq_of_ptr hmem hb rfl)
    · rintro ⟨bs, hbs, -⟩
      cases hbs
  · rw [Function.update_of_ne hp, h.block p n]
    refine and_iff_right ?_
    rintro rfl
    exact hp rfl

/-- A block is there. -/
theorem come (h : u.Clients c) (bs : List UInt8) (hp : ∀ b ∈ u.state.live, p ≠ b.ptr) :
    (((⟨p, bs.length⟩ : Block) :: u.state.live).map Block.ptr).Nodup ∧
      ∀ q n, (⟨q, n⟩ : Block) ∈ (⟨p, bs.length⟩ : Block) :: u.state.live ↔
        ∃ cs, Function.update c.heap p (some bs) q = some cs ∧ cs.length = n := by
  refine ⟨?_, fun q n => ?_⟩
  · rw [List.map_cons, List.nodup_cons]
    refine ⟨fun hmem => ?_, h.distinct⟩
    obtain ⟨b, hb, hptr⟩ := List.mem_map.mp hmem
    exact hp b hb hptr.symm
  · rw [List.mem_cons]
    by_cases hq : q = p
    · subst hq
      rw [Function.update_self]
      constructor
      · rintro (heq | hmem)
        · exact ⟨bs, rfl, (Block.mk.inj heq).2.symm⟩
        · exact absurd rfl (hp _ hmem)
      · rintro ⟨cs, hcs, rfl⟩
        exact .inl (by rw [Option.some.inj hcs])
    · rw [Function.update_of_ne hq, ← h.block q n]
      refine or_iff_right ?_
      rintro heq
      exact hq (Block.mk.inj heq).1

variable [DecidableEq ι]

/-- What the threads have asked for, once `t` goes on as `th`. -/
theorem asked_update (h : u.Clients c) {t : ι} {th : Thread Call Result Action Answer Held}
    {r : Option Heap.Request} (hr : request th = r) (t' : ι) :
    Function.update c.asked t r t' = request (Function.update u.threads t th t') := by
  by_cases ht : t' = t
  · subst ht
    rw [Function.update_self, Function.update_self, hr]
  · rw [Function.update_of_ne ht, Function.update_of_ne ht, h.asked]

end Clients
end Process

namespace World

variable [Fintype ι] {w : World} {γ : ι → Option Held} {t : ι} {g : Held}

/-- An object that a call holds is not a live block. -/
theorem Inv.ne_of_held (hi : w.Inv γ) (hg : γ t = some g) {c p : Nat} (hp : p ∈ g.objs c)
    {b : Block} (hb : b ∈ w.live) : p ≠ b.ptr := by
  rintro rfl
  obtain ⟨L, S, hback⟩ := hi.backend
  obtain ⟨s, x, i, hs, hx, hix, hptr⟩ := hback.handed c b.ptr (mem_handed (w := w) hg hp)
  obtain ⟨s', y, j, hs', hy, hjy, hptr', -⟩ := hi.live_object hback hb
  obtain ⟨rfl, rfl⟩ := hback.addr_unique hs hs' hx hy hix hjy (hptr.symm.trans hptr')
  obtain rfl := hback.apart c b.sc s hs hs'
  -- it would be handed out twice
  have hcount : 2 ≤ (w.handed γ b.sc).count b.ptr := by
    have hheld := Multiset.count_le_of_le b.ptr (callObjects_le γ t b.sc)
    have hcall : 0 < (callObjects (γ t) b.sc).count b.ptr := by
      rw [hg]
      exact Multiset.count_pos.mpr hp
    have hlive := Multiset.count_pos.mpr (mem_liveObjects hb)
    simp only [World.handed, Pi.add_apply, Multiset.count_add]
    omega
  have honce := Multiset.nodup_iff_count_le_one.mp (hback.nodup b.sc) b.ptr
  omega

end World

/-! ### Steps -/

section Steps
variable [DecidableEq ι] {u u' : Process ι} {c : Heap.Clients ι} {t : ι}

/-- One step of the heap matches. -/
theorem Process.Clients.matched {l : Step ι Call Env ClientWrite} (e : Heap.Event ι)
    (he : e.Allowed c) (hshown : some (u.shown l) = some (e.shown c))
    (h : u'.Clients (e.apply c)) :
    ∃ es c', (Heap.system ι).Run c es c' ∧
      (Heap.system ι).trace Heap.Event.shown c es = (u.shown l).toList ∧ u'.Clients c' := by
  refine ⟨[e], e.apply c, .one he rfl, ?_, h⟩
  rw [Option.some.inj hshown]
  exact List.append_nil _

theorem clients_start {x : Call} (h : u.Clients c)
    (hs : (Process.system ι).step u (.start t x) = some u') :
    ∃ es c', (Heap.system ι).Run c es c' ∧
      (Heap.system ι).trace Heap.Event.shown c es = (u.shown (.start t x)).toList ∧
      u'.Clients c' := by
  have hmem := congrArg (fun a => a.backend.mem) (start_mem hs)
  obtain ⟨hidle, g, w, hbegin, rfl⟩ := Machine.step_start hs
  have hasked : c.asked t = none := by
    rw [h.asked, hidle]
    rfl
  cases x with
  | allocate n =>
      obtain ⟨-, rfl⟩ := Prod.mk.inj (Option.some.inj hbegin)
      exact Process.Clients.matched (.ask t (.allocate n)) hasked rfl
        ⟨h.asked_update rfl, h.distinct, h.block, h.apart, h.holds⟩
  | deallocate p =>
      obtain ⟨b, hfind, hw⟩ := Option.map_eq_some_iff.mp hbegin
      obtain ⟨-, rfl⟩ := Prod.mk.inj hw
      have hb := List.mem_of_find?_eq_some hfind
      obtain rfl : b.ptr = p := by simpa using List.find?_some hfind
      obtain ⟨bs, hbs, -⟩ := h.bytes hb
      obtain ⟨hdistinct, hblock⟩ := h.gone hb
      exact Process.Clients.matched (.ask t (.release b.ptr)) ⟨hasked, bs, hbs⟩ rfl
        ⟨h.asked_update rfl, hdistinct, hblock, h.apart.forget _, h.holds.forget _⟩

variable [Fintype ι]

theorem clients_act {e : Env} (hok : machine.Ok Pre Ans Done World.Inv u) (h : u.Clients c)
    (hs : (Process.system ι).step u (.act t e) = some u') : u'.Clients c := by
  obtain ⟨hi, hwp⟩ := hok
  obtain ⟨x, g, a, k, r, w, hbusy, hres, rfl⟩ := Machine.step_act hs
  have hg : Machine.ghosts u t = some g := by
    rw [Machine.ghosts, hbusy]
    rfl
  have hlive : w.live = u.state.live := by
    obtain ⟨q, -, hq⟩ := Option.map_eq_some_iff.mp hres
    obtain ⟨-, rfl⟩ := Prod.mk.inj hq
    rfl
  refine h.quiet hlive (fun t' => ?_) (hi.footprint hg (hwp t x g _ hbusy).1 hres).2
  by_cases ht : t' = t
  · subst ht
    simp only [hbusy, Function.update_self, Process.request]
  · simp only [Function.update_of_ne ht]

theorem clients_finish (hok : machine.Ok Pre Ans Done World.Inv u) (h : u.Clients c)
    (hs : (Process.system ι).step u (.finish t) = some u') :
    ∃ es c', (Heap.system ι).Run c es c' ∧
      (Heap.system ι).trace Heap.Event.shown c es = (u.shown (.finish t)).toList ∧
      u'.Clients c' := by
  obtain ⟨hi, hwp⟩ := hok
  have hmem := congrArg (fun a => a.backend.mem) (finish_mem hs)
  obtain ⟨x, g, v, hbusy, rfl⟩ := Machine.step_finish hs
  have hg : Machine.ghosts u t = some g := by
    rw [Machine.ghosts, hbusy]
    rfl
  have hasked : c.asked t = some x.request := by
    rw [h.asked, hbusy]
    rfl
  cases x with
  | deallocate p =>
      refine Process.Clients.matched (.released t) ⟨p, hasked⟩ ?_
        ⟨h.asked_update rfl, h.distinct, h.block, h.apart, h.holds⟩
      simp only [Process.shown, hbusy, Heap.Event.shown]
  | allocate n =>
      by_cases hv : v = (0 : Nat)
      · subst hv
        refine Process.Clients.matched (.refuse t) ⟨n, hasked⟩ ?_
          ⟨h.asked_update rfl, h.distinct, h.block, h.apart, h.holds⟩
        simp only [Process.shown, hbusy, Heap.Event.shown]
      · obtain ⟨h0, -⟩ | ⟨-, hn, hobjs⟩ := hwp t _ g _ hbusy
        · exact absurd h0 hv
        have hheld : v ∈ g.objs (roundSizeClass n).2 := by
          rw [hobjs]
          simp [inClass]
        have hne : ∀ b ∈ u.state.live, v ≠ b.ptr := fun b hb => hi.ne_of_held hg hheld hb
        have hvacant : c.heap.Vacant v n := by
          refine ⟨?_, fun q cs hq => ?_⟩
          · cases hq : c.heap v with
            | none => rfl
            | some cs => exact absurd rfl (hne _ ((h.block v _).mpr ⟨cs, hq, rfl⟩))
          · have hd := hi.disjoint_of_held hg hheld ((h.block q _).mpr ⟨cs, hq, rfl⟩)
            have hle := (roundSizeClass_spec hn).2.2.2.1
            simp only at hd
            omega
        have hread : (u.state.allocator.backend.mem.read v n).length = n := by simp
        obtain ⟨hdistinct, hblock⟩ := h.come (u.state.allocator.backend.mem.read v n) hne
        rw [hread] at hdistinct hblock
        refine Process.Clients.matched (.grant t v (u.state.allocator.backend.mem.read v n))
          ⟨⟨n, hread.ge, hasked⟩, hv, by rw [hread]; exact hvacant⟩ ?_ ?_
        · simp only [Process.shown, hbusy, Heap.Event.shown]
        · have hstate : machine.finish u.state (.allocate n) v =
              { u.state with live := ⟨v, n⟩ :: u.state.live } := if_neg hv
          rw [hstate]
          exact ⟨h.asked_update rfl, hdistinct, hblock, h.apart.grant (hread.symm ▸ hvacant),
            h.holds.grant v n⟩

omit [Fintype ι] in
theorem clients_write {x : ClientWrite} (h : u.Clients c)
    (hs : (Process.system ι).step u (.client x) = some u') :
    ∃ es c', (Heap.system ι).Run c es c' ∧
      (Heap.system ι).trace Heap.Event.shown c es = (u.shown (.client x)).toList ∧
      u'.Clients c' := by
  obtain ⟨w, hw, rfl⟩ := Option.map_eq_some_iff.mp
    (show (World.client u.state x).map (fun w => (⟨w, u.threads⟩ : Process ι)) = some u' from hs)
  obtain ⟨⟨hb, hlen⟩, rfl⟩ : (x.block ∈ u.state.live ∧ x.offset + x.len ≤ x.block.size) ∧
      { u.state with allocator := u.state.allocator.setMem (u.state.allocator.backend.mem.store
          (x.block.ptr + x.offset) x.len x.value) } = w := by
    rw [World.client] at hw
    split at hw
    · exact ⟨‹_›, Option.some.inj hw⟩
    · cases hw
  obtain ⟨bs, hbs, hsize⟩ := h.bytes hb
  have hfit : x.offset + (Memory.bytesOf x.len x.value).length ≤ bs.length := by
    rw [Memory.bytesOf_length, hsize]
    exact hlen
  have hover := length_overwrite hfit
  refine Process.Clients.matched (.write x.block.ptr x.offset (Memory.bytesOf x.len x.value))
    ⟨bs, hbs, hfit⟩ rfl ⟨h.asked, h.distinct, fun p n => ?_, ?_, ?_⟩
  · rw [h.block p n]
    show _ ↔ ∃ cs, Function.update c.heap x.block.ptr _ p = some cs ∧ _
    rw [hbs, Option.map_some]
    by_cases hp : p = x.block.ptr
    · subst hp
      rw [Function.update_self, hbs]
      constructor
      · rintro ⟨cs, hcs, rfl⟩
        exact ⟨_, rfl, hover.trans (by rw [Option.some.inj hcs])⟩
      · rintro ⟨cs, hcs, rfl⟩
        exact ⟨bs, rfl, by rw [← Option.some.inj hcs, hover]⟩
    · rw [Function.update_of_ne hp]
  · show Heap.Apart (Function.update c.heap x.block.ptr _)
    rw [hbs, Option.map_some]
    exact h.apart.write hbs hover
  · show Heap.Holds (Function.update c.heap x.block.ptr _) _
    rw [hbs, Option.map_some]
    exact h.holds.write h.apart hbs (by rwa [hsize]) x.value

end Steps

/-! ### Runs -/

/-- The new process, and no block in use. -/
theorem clients_init (mem : Memory) (foreign : Nat → Bool) (slabPage slabCount : Nat) :
    (Process.init ι mem foreign slabPage slabCount).Clients (Heap.Clients.rest ι) where
  asked _ := rfl
  distinct := List.nodup_nil
  block p n := by
    constructor
    · intro h
      cases h
    · rintro ⟨bs, h, -⟩
      cases h
  apart p q bs cs _ h := by cases h
  holds p bs h := by cases h

/-- **The allocator is a heap.**  In each run, of any threads in any order, on any CPUs and with any
answers of the kernel, the clients see a run of the heap whose blocks have bytes of their own: the
same requests, answers and writes.  A block that `allocate` returns overlaps none in use, and each
block in use has in memory the bytes that were in it at first, with its client's writes over
them. -/
theorem clients_refine [Fintype ι] [DecidableEq ι] {mem : Memory} {foreign : Nat → Bool}
    {slabPage slabCount : Nat} {ls : List (Step ι Call Env ClientWrite)} {u : Process ι}
    (r : (Process.system ι).Run (Process.init ι mem foreign slabPage slabCount) ls u) :
    ∃ es c, (Heap.system ι).Run (Heap.Clients.rest ι) es c ∧
      (Heap.system ι).trace Heap.Event.shown (Heap.Clients.rest ι) es =
        (Process.system ι).trace Process.shown
          (Process.init ι mem foreign slabPage slabCount) ls ∧
      u.Clients c := by
  have hstep : ∀ {u : Process ι} {c : Heap.Clients ι} {l u'},
      machine.Ok Pre Ans Done World.Inv u ∧ u.Clients c →
      (Process.system ι).allowed u l → (Process.system ι).step u l = some u' →
      ∃ es c', (Heap.system ι).Run c es c' ∧
        (Heap.system ι).trace Heap.Event.shown c es = (u.shown l).toList ∧
        machine.Ok Pre Ans Done World.Inv u' ∧ u'.Clients c' := by
    rintro u c l u' ⟨hok, h⟩ ha hs
    obtain ⟨v, hv, hok'⟩ := machine_sound.step hok ha
    obtain rfl := Option.some.inj (hs.symm.trans hv)
    suffices hmatch : ∃ es c', (Heap.system ι).Run c es c' ∧
        (Heap.system ι).trace Heap.Event.shown c es = (u.shown l).toList ∧ u'.Clients c' by
      obtain ⟨es, c', hrun, htrace, h'⟩ := hmatch
      exact ⟨es, c', hrun, htrace, hok', h'⟩
    cases l with
    | start t x => exact clients_start h hs
    | act t e => exact ⟨[], c, .refl c, rfl, clients_act hok h hs⟩
    | finish t => exact clients_finish hok h hs
    | client x => exact clients_write h hs
  obtain ⟨es, c, hrun, htrace, -, h⟩ := r.refines hstep
    ⟨Machine.ok_rest (World.Inv.init mem foreign slabPage slabCount), clients_init ..⟩
  exact ⟨es, c, hrun, htrace, h⟩

/-- The bytes that the client of `sampleSteps` has written are in its block. -/
theorem clients_refine_sample :
    ∃ (u : Process (Fin 2)) (c : Heap.Clients (Fin 2)) (bs : List UInt8),
      (Process.system (Fin 2)).Run
        (Process.init (Fin 2) Memory.zero (fun _ => false) 1000 1) sampleSteps u ∧
      c.heap 196608 = some bs ∧ u.state.allocator.backend.mem.read 196608 bs.length = bs := by
  obtain ⟨u, -, r, hlive, -⟩ := sampleSteps_run
  obtain ⟨es, c, -, -, h⟩ := clients_refine r
  have hb : (⟨196608, 20000⟩ : Block) ∈ u.state.live := by
    rw [hlive]
    exact List.mem_singleton_self _
  obtain ⟨bs, hbs, -⟩ := h.bytes hb
  exact ⟨u, c, bs, r, hbs, h.holds _ _ hbs⟩

end TieredAllocator
