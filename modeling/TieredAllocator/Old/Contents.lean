import TieredAllocator.Lib.Heaps
import TieredAllocator.Old.Payloads
import TieredAllocator.Old.Runs

/-!
# Old design — what the clients see

The old allocator refines `Heap.system` too, with a single client (`contents_refine`): boundary
tags, the cursor and coalescing do not show, and each live block holds what was written into it.  A
`deallocate` that the kernel refuses is no step of the heap, and the block stays.
-/

namespace TieredAllocator.Old
open Lib

variable {a a' : Allocator} {g g' : Ghost} {b n p : Nat} {fuel : Nat} {r : Bool}
  {k : Kernel} {w w' : World} {mem : Memory} {os : Os} {s : Step} {ss : List Step}
  {c : Heap.Clients Unit} {bs : List UInt8}

namespace World

/-- A call shows a request and its answer; a `deallocate` that fails and one of a block on the free
list show nothing. -/
def shown (w : World) (s : Step) : Option (List (Heap.Shown Unit)) :=
  match s.call with
  | .allocate size =>
      (w.allocator.allocate s.kernel s.fuel size).map fun (ptr, _) =>
        [.ask () (.allocate size), .answer () (some (if ptr = minusOne then 0 else ptr))]
  | .deallocate ptr =>
      (w.allocator.deallocate s.kernel s.fuel ptr).map fun (ok, _) =>
        if ok then [.ask () (.release ptr), .answer () none] else []
  | .deallocateFree _ => none
  | .write ptr i v => some [.write ptr i [v]]

/-- The clients' view of a state: a block has all the bytes that there is room for. -/
structure Shows (w : World) (c : Heap.Clients Unit) : Prop where
  asked : c.asked () = none
  live : ∀ p, p ∈ w.live ↔ ∃ bs, c.heap p = some bs
  size : ∀ p bs, c.heap p = some bs → bs.length = w.allocator.sizeOf p
  holds : c.heap.Holds w.allocator.mem

namespace Shows

/-- Each block of the clients is a block in use. -/
theorem used (h : w.Shows c) (hw : w.Ok g) (hp : c.heap p = some bs) :
    ∃ b, p = b + headerSize ∧ g.Used b ∧ bs.length = g.size b := by
  obtain ⟨b, rfl, hb⟩ := hw.used p ((h.live p).mpr ⟨bs, hp⟩)
  exact ⟨b, rfl, hb, (h.size _ bs hp).trans (hw.inv.coherent.sizeOf_eq hb)⟩

theorem apart (h : w.Shows c) (hw : w.Ok g) : c.heap.Apart := by
  intro p q bs cs hne hp hq
  obtain ⟨b, rfl, hb, hbs⟩ := h.used hw hp
  obtain ⟨d, rfl, hd, hcs⟩ := h.used hw hq
  have := hw.inv.coherent.used_apart hb hd fun h => hne (by rw [h])
  simp only [Ghost.span] at this
  rw [hbs, hcs, headerSize]
  omega

end Shows
end World

/-- `b` is still in use, with the same size and the same bytes. -/
structure Kept (a a' : Allocator) (g g' : Ghost) (b : Nat) : Prop where
  used : g'.Used b
  size : g'.size b = g.size b
  mem : ∀ y, b + headerSize ≤ y → y < b + headerSize + g.size b → a'.mem.byte y = a.mem.byte y

namespace World
namespace Shows

/-- The blocks of `h'` are blocks of the clients that the call has kept. -/
theorem keep (h : w.Shows c) (hw : w.Ok g) (hi : Inv a' g') (h' : Heap)
    (hsub : ∀ p bs, h' p = some bs → c.heap p = some bs)
    (hkept : ∀ b bs, g.Used b → h' (b + headerSize) = some bs → Kept w.allocator a' g g' b) :
    (∀ p bs, h' p = some bs → bs.length = a'.sizeOf p) ∧ h'.Holds a'.mem := by
  constructor
  · intro p bs hp
    obtain ⟨b, rfl, hb, hbs⟩ := h.used hw (hsub p bs hp)
    have hk := hkept b bs hb hp
    rw [hbs, hi.coherent.sizeOf_eq hk.used, hk.size]
  · intro p bs hp
    obtain ⟨b, rfl, hb, hbs⟩ := h.used hw (hsub p bs hp)
    have hk := hkept b bs hb hp
    rw [Memory.read_congr fun y h₁ h₂ => hk.mem y h₁ (hbs ▸ h₂)]
    exact h.holds _ bs (hsub _ bs hp)

/-- A call that the clients do not see. -/
theorem quiet (h : w.Shows c) (hw : w.Ok g) (hi : Inv a' g')
    (hkept : ∀ b, g.Used b → b + headerSize ∈ w.live → Kept w.allocator a' g g' b) :
    Shows ⟨a', w.live⟩ c := by
  obtain ⟨hsize, hholds⟩ := h.keep hw hi c.heap (fun _ _ => id) fun b bs hb hp =>
    hkept b hb ((h.live _).mpr ⟨bs, hp⟩)
  exact ⟨h.asked, h.live, hsize, hholds⟩

/-- A call that gives a block up. -/
theorem release (h : w.Shows c) (hw : w.Ok g) (hi : Inv a' g')
    (hkept : ∀ x, g.Used x → x ≠ b → Kept w.allocator a' g g' x) :
    Shows ⟨a', w.live.erase (b + headerSize)⟩
      ⟨Function.update c.heap (b + headerSize) none, c.asked⟩ := by
  obtain ⟨hsize, hholds⟩ := h.keep hw hi (Function.update c.heap (b + headerSize) none)
    (fun p bs hp => by
      rcases Heap.update_eq hp with ⟨-, hnone⟩ | ⟨-, hp⟩
      · cases hnone
      · exact hp) fun x bs hx hp => hkept x hx (by
      rintro rfl
      rw [Function.update_self] at hp
      cases hp)
  refine ⟨h.asked, fun p => ?_, hsize, hholds⟩
  rw [hw.nodup.mem_erase_iff, h.live]
  by_cases hp : p = b + headerSize
  · simp [hp]
  · simp [hp]

/-- A call that hands a block out. -/
theorem grant (h : w.Shows c) (hw : w.Ok g) (hi : Inv a' g') (hu : g'.Used b)
    (hkept : ∀ x, g.Used x → Kept w.allocator a' g g' x) :
    Shows ⟨a', (b + headerSize) :: w.live⟩
      ⟨Function.update c.heap (b + headerSize)
        (some (a'.mem.read (b + headerSize) (g'.size b))), c.asked⟩ := by
  obtain ⟨hsize, hholds⟩ := h.keep hw hi c.heap (fun _ _ => id) fun x bs hx _ => hkept x hx
  refine ⟨h.asked, fun p => ?_, fun p bs hp => ?_, hholds.grant _ _⟩
  · rw [List.mem_cons, h.live]
    by_cases hp : p = b + headerSize
    · simp [hp]
    · simp [hp]
  · rcases Heap.update_eq hp with ⟨rfl, hbs⟩ | ⟨-, hp⟩
    · rw [← Option.some.inj hbs, Memory.read_length, hi.coherent.sizeOf_eq hu]
    · exact hsize p bs hp

end Shows

/-! ### Steps -/

/-- What a step is matched by. -/
def Matched (w w' : World) (c : Heap.Clients Unit) (s : Step) : Prop :=
  ∃ es c', (Heap.system Unit).Run c es c' ∧
    (Heap.system Unit).trace Heap.Event.shown c es = (w.shown s).getD [] ∧
    (∃ g', w'.Ok g') ∧ w'.Shows c'

theorem shows_allocate {size : Nat} (hw : w.Ok g) (h : w.Shows c)
    (hn : size + overheadSize < 2 ^ 64) (hs : w.step ⟨.allocate size, fuel, k⟩ = some w') :
    Matched w w' c ⟨.allocate size, fuel, k⟩ := by
  obtain ⟨⟨p, a'⟩, halloc, rfl⟩ := Option.map_eq_some_iff.mp hs
  rw [show overheadSize = 40 from rfl] at hn
  have hspare := allocate_spares hw.inv hn halloc
  have hshown : w.shown ⟨.allocate size, fuel, k⟩ = some [.ask () (.allocate size),
      .answer () (some (if p = minusOne then 0 else p))] := by
    simp only [shown, halloc, Option.map_some]
  have hask : (Heap.Event.ask () (.allocate size)).Allowed c := h.asked
  have hasked := Heap.Event.asked_ask c () (.allocate size)
  have hback := Heap.Event.asked_answer h.asked (.allocate size)
  rcases allocate_spec hw.inv hn halloc with
    ⟨rfl, hi⟩ | ⟨b, g', rfl, hne, hi, hk, hu, hnu, hle, -⟩
  · refine ⟨[.ask () (.allocate size), .refuse ()], ⟨c.heap, c.asked⟩,
      .more hask rfl (.one ⟨size, hasked⟩ ?_), ?_, ⟨g, hi, ?_, ?_⟩, ?_⟩
    · rw [← hback]
      rfl
    · rw [hshown, if_pos rfl]
      rfl
    · simpa using hw.used
    · simpa using hw.nodup
    · simp only [if_pos]
      exact h.quiet hw hi fun b hb _ => ⟨hb, rfl, hspare b hb⟩
  · simp only [if_neg hne]
    have hkept : ∀ x, g.Used x → Kept w.allocator a' g g' x := fun x hx =>
      ⟨(hk x hx).1, (hk x hx).2, hspare x hx⟩
    refine ⟨[.ask () (.allocate size), .grant () (b + headerSize)
      (a'.mem.read (b + headerSize) (g'.size b))], _, .more hask rfl (.one ⟨⟨size, ?_, hasked⟩,
        ?_, ?_, fun q cs hq => ?_⟩ ?_), ?_, ⟨g', hw.grant hi hk hu hnu⟩, h.grant hw hi hu hkept⟩
    · rwa [Memory.read_length]
    · rw [headerSize]
      omega
    · show c.heap (b + headerSize) = none
      cases hp : c.heap (b + headerSize) with
      | none => rfl
      | some bs =>
          obtain ⟨d, hd, hdu, -⟩ := h.used hw hp
          obtain rfl : b = d := Nat.add_right_cancel hd
          exact absurd hdu hnu
    · obtain ⟨d, rfl, hdu, hcs⟩ := h.used hw hq
      have hdb : d ≠ b := fun h => hnu (h ▸ hdu)
      have := hi.coherent.used_apart (hk d hdu).1 hu hdb
      simp only [Ghost.span, (hk d hdu).2] at this
      rw [Memory.read_length, hcs, headerSize]
      omega
    · rw [← hback]
      rfl
    · rw [hshown, if_neg hne]
      rfl

theorem shows_deallocate {ptr : Nat} (hw : w.Ok g) (h : w.Shows c) (hp : ptr ∈ w.live)
    (hs : w.step ⟨.deallocate ptr, fuel, k⟩ = some w') :
    Matched w w' c ⟨.deallocate ptr, fuel, k⟩ := by
  simp only [World.step] at hs
  obtain ⟨⟨ok, a'⟩, hdealloc, rfl⟩ := Option.map_eq_some_iff.mp hs
  have hshown : w.shown ⟨.deallocate ptr, fuel, k⟩ =
      some (if ok then [.ask () (.release ptr), .answer () none] else []) := by
    simp only [shown, hdealloc, Option.map_some]
  obtain ⟨b, rfl, hu⟩ := hw.used ptr hp
  rw [hw.inv.coherent.deallocate_eq hu] at hdealloc
  obtain ⟨g', hi, hk⟩ := deallocateBlock_spec hw.inv (.inl hu) hdealloc
  have hspare := deallocateBlock_spares hw.inv (.inl hu) hdealloc
  have hok := hw.keep hi hk
  cases ok with
  | false =>
      refine ⟨[], c, .refl c, by rw [hshown]; rfl, ⟨g', hok⟩, ?_⟩
      exact h.quiet hw hi fun x hx _ =>
        ⟨(hk x hx (.inr rfl)).1, (hk x hx (.inr rfl)).2, hspare x hx (.inr rfl)⟩
  | true =>
      have hask : (Heap.Event.ask () (.release (b + headerSize))).Allowed c :=
        ⟨h.asked, (h.live _).mp hp⟩
      refine ⟨[.ask () (.release (b + headerSize)), .released ()], _,
        .more hask rfl (.one ⟨_, Heap.Event.asked_ask c () _⟩ ?_), by rw [hshown]; rfl, ⟨g', hok⟩,
        h.release hw hi fun x hx hne =>
          ⟨(hk x hx (.inl hne)).1, (hk x hx (.inl hne)).2, hspare x hx (.inl hne)⟩⟩
      rw [← Heap.Event.asked_answer h.asked (.release (b + headerSize))]
      rfl

theorem shows_deallocateFree {i : Nat} (hw : w.Ok g) (h : w.Shows c)
    (hp : w.allocator.nthFree i ≠ 0) (hs : w.step ⟨.deallocateFree i, fuel, k⟩ = some w') :
    Matched w w' c ⟨.deallocateFree i, fuel, k⟩ := by
  simp only [World.step] at hs
  obtain ⟨⟨ok, a'⟩, hdealloc, rfl⟩ := Option.map_eq_some_iff.mp hs
  have hb := hw.inv.coherent.nthFree_mem hp
  obtain ⟨g', hi, hk⟩ := deallocateBlock_spec hw.inv (.inr hb) hdealloc
  have hspare := deallocateBlock_spares hw.inv (.inr hb) hdealloc
  have hnot := hw.inv.coherent.not_used hb
  have hkept : ∀ x, g.Used x → Kept w.allocator a' g g' x := fun x hx =>
    have hne : x ≠ w.allocator.nthFree i := fun h => hnot (h ▸ hx)
    ⟨(hk x hx (.inl hne)).1, (hk x hx (.inl hne)).2, hspare x hx (.inl hne)⟩
  refine ⟨[], c, .refl c, rfl, ⟨g', hi, fun p hp => ?_, hw.nodup⟩,
    h.quiet hw hi fun x hx _ => hkept x hx⟩
  obtain ⟨b, rfl, hu⟩ := hw.used p hp
  exact ⟨b, rfl, (hkept b hu).used⟩

theorem shows_write {i : Nat} {v : UInt8} (hw : w.Ok g) (h : w.Shows c)
    (ha : w.allowed (.write p i v)) (hs : w.step ⟨.write p i v, fuel, k⟩ = some w') :
    Matched w w' c ⟨.write p i v, fuel, k⟩ := by
  obtain rfl := Option.some.inj hs
  obtain ⟨bs, hbs⟩ := (h.live p).mp ha.1
  have hlen : i < bs.length := by
    rw [h.size p bs hbs]
    exact ha.2
  obtain ⟨b, rfl, hu, hsize⟩ := h.used hw hbs
  have hi : Inv { w.allocator with
      mem := w.allocator.mem.store (b + headerSize + i) 1 v.toNat } g :=
    hw.inv.write hu (by rw [headerSize]; omega) (by rw [headerSize]; omega)
  have hone : Memory.bytesOf 1 v.toNat = [v] := by simp [Memory.bytesOf]
  have hfit : i + ([v] : List UInt8).length ≤ bs.length := hlen
  have hover := length_overwrite hfit
  refine ⟨[.write (b + headerSize) i [v]], _, .one ⟨bs, hbs, hfit⟩ rfl, rfl,
    ⟨g, hi, hw.used, hw.nodup⟩, h.asked, fun q => ?_, fun q cs hq => ?_, ?_⟩
  · rw [h.live q]
    show _ ↔ ∃ cs, Function.update c.heap (b + headerSize) _ q = some cs
    rw [hbs, Option.map_some]
    by_cases hqp : q = b + headerSize
    · subst hqp
      simp [hbs]
    · rw [Function.update_of_ne hqp]
  · have hq : Function.update c.heap (b + headerSize)
        ((c.heap (b + headerSize)).map fun bs => overwrite bs i [v]) q = some cs := hq
    rw [hbs, Option.map_some] at hq
    rcases Heap.update_eq hq with ⟨rfl, hcs⟩ | ⟨-, hq⟩
    · rw [← Option.some.inj hcs, hover, hsize, hi.coherent.sizeOf_eq hu]
    · obtain ⟨d, rfl, hd, hlen⟩ := h.used hw hq
      rw [hlen, hi.coherent.sizeOf_eq hd]
  · show Heap.Holds (Function.update c.heap (b + headerSize) _) _
    rw [hbs, Option.map_some, ← hone]
    exact h.holds.write (h.apart hw) hbs hfit _

theorem step_shows (hw : w.Ok g) (h : w.Shows c) (hn : s.NoWrap) (ha : w.allowed s.call)
    (hs : w.step s = some w') : Matched w w' c s := by
  obtain ⟨call, fuel, k⟩ := s
  cases call with
  | allocate size => exact shows_allocate hw h hn hs
  | deallocate ptr => exact shows_deallocate hw h ha hs
  | deallocateFree i => exact shows_deallocateFree hw h ha hs
  | write ptr i v => exact shows_write hw h ha hs

/-- A new allocator, and no block in use. -/
theorem shows_init (k : Kernel) (mem : Memory) (os : Os) :
    (World.init k mem os).Shows (Heap.Clients.rest Unit) where
  asked := rfl
  live p := by simp [World.init, Heap.Clients.rest]
  size p bs hp := by cases hp
  holds p bs hp := by cases hp

end World

/-- **The old allocator refines the heap.**  Each run without wrapping sizes is matched by a run of
`Heap.system` with the same requests, answers and writes; the live pointers are its blocks, and
memory holds their bytes. -/
theorem contents_refine (r : World.system.Run (World.init k mem os) ss w)
    (hn : ∀ s ∈ ss, s.NoWrap) :
    ∃ es c, (Heap.system Unit).Run (Heap.Clients.rest Unit) es c ∧
      (Heap.system Unit).trace Heap.Event.shown (Heap.Clients.rest Unit) es =
        (World.system.trace World.shown (World.init k mem os) ss).flatten ∧
      w.Shows c := by
  obtain ⟨es, c, hrun, htrace, -, h⟩ := r.refines_of (L := Step.NoWrap)
    (J := fun w c => (∃ g, w.Ok g) ∧ w.Shows c)
    (fun ⟨⟨_, hw⟩, h⟩ hn ha hs => World.step_shows hw h hn ha hs) hn
    ⟨World.init_ok k mem os, World.shows_init k mem os⟩
  exact ⟨es, c, hrun, htrace, h⟩

/-- Three blocks later, one of them mapped, the byte written is still there. -/
theorem contents_refine_sample : ∃ (w : World) (c : Heap.Clients Unit) (bs : List UInt8),
    World.system.Run (World.init ⟨true, true, true, none⟩ .zero sampleOs) sampleSteps w ∧
      c.heap 1000024 = some bs ∧ w.allocator.mem.read 1000024 bs.length = bs := by
  have h : ((World.system.replay (World.init ⟨true, true, true, none⟩ .zero sampleOs)
      sampleSteps).map World.live) = some [5940, 1000024, 5400] := by
    decide +kernel
  obtain ⟨w, hw, hlive⟩ := Option.map_eq_some_iff.mp h
  have r := System.Run.of_replay hw
  obtain ⟨es, c, -, -, hshows⟩ := contents_refine r (by decide)
  obtain ⟨bs, hbs⟩ := (hshows.live 1000024).mp (by simp [hlive])
  exact ⟨w, c, bs, r, hbs, hshows.holds _ bs hbs⟩

end TieredAllocator.Old
