import TieredAllocator.Lib.Linked
import TieredAllocator.PageHeap.Definitions

/-!
# Page heap — links

`unlink` and `insertWalk` over the `Span` objects, against the lists they edit.  A list of spans
is `SpanList spans head l`; its edits change the links of its own nodes only (`SameData`, and the
objects off the list stay what they were).
-/

namespace TieredAllocator
open Lib

variable {spans spans' : SpanId → Option Span} {head : Option SpanId} {l : List SpanId}
  {s t : SpanId} {x y : Span}

def nextOf (spans : SpanId → Option Span) (s : SpanId) : Option SpanId := (spans s).bind Span.next

def prevOf (spans : SpanId → Option Span) (s : SpanId) : Option SpanId := (spans s).bind Span.prev

theorem nextOf_eq (h : spans s = some x) : nextOf spans s = x.next := by simp [nextOf, h]

theorem prevOf_eq (h : spans s = some x) : prevOf spans s = x.prev := by simp [prevOf, h]

/-- A span without its links. -/
def Span.data (x : Span) : Span := { x with next := none, prev := none }

/-- The two stores hold the same spans up to links. -/
def SameData (spans spans' : SpanId → Option Span) : Prop :=
  ∀ t, (spans' t).map Span.data = (spans t).map Span.data

/-- A function that reads no link has the same value where the data are the same. -/
theorem Span.map_of_data {β : Type*} {f : Span → β} (hf : ∀ x, f x.data = f x)
    {u v : Option Span} (h : u.map Span.data = v.map Span.data) : u.map f = v.map f := by
  have hmap : ∀ w : Option Span, (w.map Span.data).map f = w.map f := fun w => by
    rw [Option.map_map]
    exact congrFun (congrArg Option.map (funext hf)) w
  rw [← hmap u, h, hmap v]

theorem Span.some_of_data {u v : Option Span} (h : u.map Span.data = v.map Span.data)
    (hv : v = some x) : ∃ y, u = some y ∧ y.data = x.data := by
  rwa [hv, Option.map_some, Option.map_eq_some_iff] at h

namespace SameData

theorem symm (h : SameData spans spans') : SameData spans' spans := fun t => (h t).symm

theorem some (h : SameData spans spans') (hx : spans s = some x) :
    ∃ y, spans' s = some y ∧ y.data = x.data :=
  Span.some_of_data (h s) hx

end SameData

theorem Span.data_inj (h : x.data = y.data) :
    x.start = y.start ∧ x.numPages = y.numPages ∧ x.size = y.size ∧ x.isFree = y.isFree := by
  simp only [Span.data, Span.mk.injEq] at h
  exact ⟨h.1, h.2.1, h.2.2.2.2.1, h.2.2.2.2.2.2.2.2.2⟩

/-- The chain from `head` is `l`, mirrored, without repetition, over existing spans. -/
structure SpanList (spans : SpanId → Option Span) (head : Option SpanId) (l : List SpanId) :
    Prop where
  linked : Linked (nextOf spans) (prevOf spans) none head l
  nodup : l.Nodup
  exist : ∀ s ∈ l, ∃ x, spans s = some x

namespace SpanList

theorem nil (spans : SpanId → Option Span) : SpanList spans none [] :=
  ⟨rfl, List.nodup_nil, by simp⟩

/-- A list reads its own nodes only. -/
theorem congr (h : SpanList spans head l) (hag : ∀ t ∈ l, spans' t = spans t) :
    SpanList spans' head l where
  linked := h.linked.congr (fun t ht => by simp [nextOf, hag t ht])
    fun t ht => by simp [prevOf, hag t ht]
  nodup := h.nodup
  exist t ht := by rw [hag t ht]; exact h.exist t ht

/-- The head of a list is on it. -/
theorem head_mem (h : SpanList spans head l) (hs : head = some s) : s ∈ l :=
  List.mem_of_mem_head? (h.linked.head_eq.symm.trans hs)

theorem prev_ne (h : SpanList spans head l) (hs : s ∈ l) (hx : spans s = some x) {p : SpanId}
    (hp : x.prev = some p) : p ≠ s ∧ p ∈ l := by
  have hps := (prevOf_eq hx).trans hp
  rcases h.linked.prev_mem hs with e | ⟨y, hy, e⟩
  · rw [hps] at e; cases e
  · obtain rfl : p = y := Option.some.inj (hps.symm.trans e)
    exact ⟨h.linked.prev_ne_self h.nodup (by simp) hs hps, hy⟩

theorem next_ne (h : SpanList spans head l) (hs : s ∈ l) (hx : spans s = some x) {n : SpanId}
    (hn : x.next = some n) : n ≠ s ∧ n ∈ l := by
  have hns := (nextOf_eq hx).trans hn
  exact ⟨h.linked.next_ne_self h.nodup hs hns, h.linked.next_mem hs hns⟩

end SpanList

/-! ### Unlinking -/

/-- The spans after `s`, which holds `x`, is unlinked. -/
def unlinked (spans : SpanId → Option Span) (s : SpanId) (x : Span) : SpanId → Option Span :=
  fun t =>
    if t = s then some { x with next := none, prev := none }
    else (spans t).map fun y =>
      { y with
        next := if x.prev = some t then x.next else y.next
        prev := if x.next = some t then x.prev else y.prev }

theorem unlink_eq (hx : spans s = some x)
    (hp : ∀ p, x.prev = some p → p ≠ s ∧ ∃ y, spans p = some y)
    (hn : ∀ n, x.next = some n → n ≠ s ∧ ∃ y, spans n = some y) :
    unlink spans head s = some (unlinked spans s x, if x.prev = none then x.next else head) := by
  obtain ⟨start, numPages, next, prev, _, _, _, _, _, _⟩ := x
  simp only at hp hn
  cases prev with
  | none =>
      cases next with
      | none =>
          simp only [unlink, hx, Option.bind_eq_bind, Option.bind_some, Option.some.injEq,
            Prod.mk.injEq, if_true, and_true]
          funext t
          by_cases ht : t = s
          · simp [unlinked, ht]
          · simp [unlinked, ht]
      | some n =>
          obtain ⟨hns, z, hz⟩ := hn n rfl
          simp only [unlink, hx, hz, Option.bind_eq_bind, Option.bind_some, Option.some.injEq,
            Prod.mk.injEq, if_true, and_true, Function.update_of_ne (Ne.symm hns)]
          funext t
          by_cases ht : t = s
          · simp [unlinked, ht]
          · by_cases htn : t = n
            · subst htn; simp [unlinked, ht, hz]
            · simp [unlinked, ht, htn, Ne.symm htn]
  | some p =>
      obtain ⟨hps, w, hw⟩ := hp p rfl
      cases next with
      | none =>
          simp only [unlink, hx, hw, Option.bind_eq_bind, Option.bind_some, Option.some.injEq,
            Prod.mk.injEq, reduceCtorEq, if_false, and_true, Function.update_of_ne (Ne.symm hps)]
          funext t
          by_cases ht : t = s
          · simp [unlinked, ht]
          · by_cases htp : t = p
            · subst htp; simp [unlinked, ht, hw]
            · simp [unlinked, ht, htp, Ne.symm htp]
      | some n =>
          obtain ⟨hns, z, hz⟩ := hn n rfl
          by_cases hnp : n = p
          · subst hnp
            simp only [unlink, hx, hw, Option.bind_eq_bind, Option.bind_some, Option.some.injEq,
              Prod.mk.injEq, reduceCtorEq, if_false, and_true, Function.update_self,
              Function.update_of_ne (Ne.symm hps), Function.update_idem]
            funext t
            by_cases ht : t = s
            · simp [unlinked, ht]
            · by_cases htn : t = n
              · subst htn; simp [unlinked, ht, hw]
              · simp [unlinked, ht, htn, Ne.symm htn]
          · simp only [unlink, hx, hw, hz, Option.bind_eq_bind, Option.bind_some,
              Option.some.injEq, Prod.mk.injEq, reduceCtorEq, if_false, and_true,
              Function.update_of_ne (Ne.symm hps), Function.update_of_ne hnp,
              Function.update_of_ne (Ne.symm hns)]
            funext t
            by_cases ht : t = s
            · simp [unlinked, ht]
            · by_cases htn : t = n
              · subst htn; simp [unlinked, ht, hz, Ne.symm hnp]
              · by_cases htp : t = p
                · subst htp; simp [unlinked, ht, hw, htn, Ne.symm htn]
                · simp [unlinked, ht, htn, htp, Ne.symm htn, Ne.symm htp]

/-- **Unlinking a span of a list** takes it out of the list and clears its links; every span
keeps its data, and the spans off the list are untouched. -/
theorem unlink_spec (h : SpanList spans head l) (hs : s ∈ l) :
    ∃ spans' head', unlink spans head s = some (spans', head') ∧
      SpanList spans' head' (l.erase s) ∧ SameData spans spans' ∧
      (∀ t, t ∉ l → spans' t = spans t) ∧
      (∀ x, spans s = some x → spans' s = some x.data) := by
  obtain ⟨x, hx⟩ := h.exist s hs
  have hp : ∀ p, x.prev = some p → p ≠ s ∧ ∃ y, spans p = some y := fun p e =>
    ⟨(h.prev_ne hs hx e).1, h.exist p (h.prev_ne hs hx e).2⟩
  have hn : ∀ n, x.next = some n → n ≠ s ∧ ∃ y, spans n = some y := fun n e =>
    ⟨(h.next_ne hs hx e).1, h.exist n (h.next_ne hs hx e).2⟩
  have hsame : SameData spans (unlinked spans s x) := fun t => by
    by_cases ht : t = s
    · subst ht; simp [unlinked, hx, Span.data]
    · cases ht' : spans t <;> simp [unlinked, ht, ht', Span.data]
  have hnext : ∀ t, t ≠ s → nextOf (unlinked spans s x) t =
      if prevOf spans s = some t then nextOf spans s else nextOf spans t := fun t ht => by
    rw [prevOf_eq hx, nextOf_eq hx]
    cases ht' : spans t with
    | none =>
        have : x.prev ≠ some t := fun e => by simpa [ht'] using (hp t e).2
        simp [nextOf, unlinked, ht, ht', this]
    | some y => simp [nextOf, unlinked, ht, ht']
  have hprev : ∀ t, t ≠ s → prevOf (unlinked spans s x) t =
      if nextOf spans s = some t then prevOf spans s else prevOf spans t := fun t ht => by
    rw [prevOf_eq hx, nextOf_eq hx]
    cases ht' : spans t with
    | none =>
        have : x.next ≠ some t := fun e => by simpa [ht'] using (hn t e).2
        simp [prevOf, unlinked, ht, ht', this]
    | some y => simp [prevOf, unlinked, ht, ht']
  refine ⟨_, _, unlink_eq hx hp hn, ⟨?_, h.nodup.erase s, fun t ht => ?_⟩, hsame,
    fun t ht => ?_, fun z hz => ?_⟩
  · have := h.linked.unlink hs h.nodup (by simp) (fun t _ ht => hnext t ht)
      (fun t _ ht => hprev t ht)
    rwa [prevOf_eq hx, nextOf_eq hx] at this
  · obtain ⟨y, hy⟩ := h.exist t (List.mem_of_mem_erase ht)
    obtain ⟨z, hz, -⟩ := hsame.some hy
    exact ⟨z, hz⟩
  · have hts : t ≠ s := fun e => ht (e ▸ hs)
    have htp : x.prev ≠ some t := fun e => ht (h.prev_ne hs hx e).2
    have htn : x.next ≠ some t := fun e => ht (h.next_ne hs hx e).2
    simp [unlinked, hts, htp, htn]
  · obtain rfl : x = z := Option.some.inj (hx.symm.trans hz)
    simp [unlinked, Span.data]

/-! ### Linking in -/

/-- The spans of `l` increase in start. -/
def Increasing (spans : SpanId → Option Span) (l : List SpanId) : Prop :=
  l.Pairwise fun s t => ∀ x y, spans s = some x → spans t = some y → x.start < y.start

/-- A list without repetition below `n` has at most `n` members. -/
theorem length_le_of_nodup_lt {n : Nat} {l : List Nat} (nd : l.Nodup) (h : ∀ t ∈ l, t < n) :
    l.length ≤ n := by
  have hsub : l ⊆ List.range n := fun t ht => List.mem_range.mpr (h t ht)
  simpa using (nd.subperm hsub).length_le

/-- **The walk** stops between the nodes that start no later and the first that starts later. -/
theorem insertWalk_spec (start : Nat) {fuel : Nat} {p : Option SpanId}
    (hl : Linked (nextOf spans) (prevOf spans) p head l) (hex : ∀ t ∈ l, ∃ x, spans t = some x)
    (hf : l.length < fuel) :
    ∃ a b, l = a ++ b ∧
      insertWalk spans start fuel p head = some ((a.getLast?).or p, b.head?) ∧
      (∀ t ∈ a, ∀ y, spans t = some y → y.start ≤ start) ∧
      (∀ t ∈ b.head?, ∀ y, spans t = some y → start < y.start) := by
  induction l generalizing p head fuel with
  | nil =>
      obtain ⟨f, rfl⟩ : ∃ f, fuel = f + 1 := ⟨fuel - 1, by simp at hf; omega⟩
      obtain rfl := hl
      exact ⟨[], [], rfl, by simp [insertWalk], by simp, by simp⟩
  | cons c cs ih =>
      obtain ⟨f, rfl⟩ : ∃ f, fuel = f + 1 := ⟨fuel - 1, by simp at hf; omega⟩
      obtain ⟨rfl, -, hcs⟩ := hl
      obtain ⟨y, hy⟩ := hex c (by simp)
      by_cases hlt : start < y.start
      · refine ⟨[], c :: cs, rfl, by simp [insertWalk, hy, hlt], by simp, fun t ht z hz => ?_⟩
        obtain rfl : c = t := by simpa using ht
        obtain rfl := Option.some.inj (hy.symm.trans hz)
        exact hlt
      · rw [nextOf_eq hy] at hcs
        obtain ⟨a, b, rfl, hw, ha, hb⟩ := ih hcs (fun t ht => hex t (by simp [ht]))
          (show cs.length < f by simpa using hf)
        refine ⟨c :: a, b, rfl, ?_, fun t ht z hz => ?_, hb⟩
        · simp only [insertWalk, hy, Option.bind_eq_bind, Option.bind_some, if_neg hlt, hw]
          cases a with
          | nil => simp
          | cons d ds =>
              rw [List.getLast?_cons_cons]
              obtain ⟨u, hu⟩ : ∃ u, (d :: ds).getLast? = some u :=
                ⟨_, List.getLast?_eq_some_getLast (List.cons_ne_nil d ds)⟩
              simp [hu]
        · rcases List.mem_cons.mp ht with rfl | ht
          · obtain rfl := Option.some.inj (hy.symm.trans hz)
            exact not_lt.mp hlt
          · exact ha t ht z hz

/-- The spans after `s`, which held `x`, is linked in between `p` and `n`. -/
def linkedIn (spans : SpanId → Option Span) (s : SpanId) (x : Span) (p n : Option SpanId) :
    SpanId → Option Span :=
  fun t =>
    if t = s then some { x with isFree := true, next := n, prev := p }
    else (spans t).map fun y =>
      { y with
        next := if p = some t then some s else y.next
        prev := if n = some t then some s else y.prev }

/-- What `insert` computes once the walk has stopped between `p` and `n`. -/
theorem PageHeap.insert_eq {h : PageHeap} {n : Nat} {p c : Option SpanId}
    (hn : n ≤ maxPages) (hx : h.spans s = some x)
    (hw : ∀ hd, h.freeLists n = some hd → insertWalk
      (h.set s { x with isFree := true, next := none, prev := none }).spans x.start h.walkFuel none
        (some hd) = some (p, c))
    (hnone : h.freeLists n = none → p = none ∧ c = none)
    (hsome : h.freeLists n ≠ none → p ≠ none ∨ c ≠ none)
    (hp : ∀ q, p = some q → q ≠ s ∧ ∃ y, h.spans q = some y)
    (hc : ∀ q, c = some q → q ≠ s ∧ p ≠ some q ∧ ∃ y, h.spans q = some y) :
    h.insert n s = some { h with
      spans := linkedIn h.spans s x p c
      freeLists := Function.update h.freeLists n
        (if p = none then some s else h.freeLists n) } := by
  unfold PageHeap.insert
  rw [if_neg (by omega)]
  simp only [hx, Option.bind_eq_bind, Option.bind_some]
  cases hf : h.freeLists n with
  | none =>
      obtain ⟨rfl, rfl⟩ := hnone hf
      simp only [PageHeap.set, hf, Option.some.injEq, PageHeap.mk.injEq, if_true, and_true]
      funext t
      by_cases ht : t = s
      · simp [linkedIn, ht]
      · simp [linkedIn, ht]
  | some hd =>
      have hw := hw hd hf
      simp only [PageHeap.set, PageHeap.walkFuel] at hw
      simp only [PageHeap.set, PageHeap.walkFuel, hf, hw, Option.bind_some]
      cases c with
      | none =>
          cases p with
          | none => exact absurd (hsome (by simp [hf])) (by simp)
          | some q =>
              obtain ⟨hqs, y, hy⟩ := hp q rfl
              simp only [Option.bind_some, Function.update_of_ne hqs, hy, Option.some.injEq,
                PageHeap.mk.injEq, reduceCtorEq, if_false, ← hf, Function.update_eq_self, and_true]
              funext t
              by_cases ht : t = s
              · simp [linkedIn, ht]
              · by_cases htq : t = q
                · subst htq; simp [linkedIn, ht, hy]
                · simp [linkedIn, ht, htq, Ne.symm htq]
      | some q =>
          obtain ⟨hqs, hpq, y, hy⟩ := hc q rfl
          simp only [Function.update_of_ne hqs, hy, Option.bind_some]
          cases p with
          | none =>
              simp only [Option.some.injEq, PageHeap.mk.injEq, if_true, and_true]
              funext t
              by_cases ht : t = s
              · simp [linkedIn, ht, Function.update_of_ne (Ne.symm hqs)]
              · by_cases htq : t = q
                · subst htq; simp [linkedIn, ht, hy]
                · simp [linkedIn, ht, htq, Ne.symm htq]
          | some r =>
              obtain ⟨hrs, z, hz⟩ := hp r rfl
              have hrq : r ≠ q := fun e => hpq (e ▸ rfl)
              simp only [Function.update_of_ne hrq, Function.update_of_ne hrs, hz,
                Option.bind_some, Option.some.injEq, PageHeap.mk.injEq, reduceCtorEq, if_false,
                ← hf, Function.update_eq_self, and_true]
              funext t
              by_cases ht : t = s
              · simp [linkedIn, ht, Function.update_of_ne (Ne.symm hqs),
                  Function.update_of_ne (Ne.symm hrs)]
              · by_cases htq : t = q
                · subst htq; simp [linkedIn, ht, hy, Ne.symm hrq, hrq]
                · by_cases htr : t = r
                  · subst htr; simp [linkedIn, ht, hz, Ne.symm htq]
                  · simp [linkedIn, ht, htq, htr, Ne.symm htq, Ne.symm htr]

theorem Increasing.congr {l : List SpanId} (h : Increasing spans l)
    (hd : ∀ t ∈ l, (spans' t).map Span.data = (spans t).map Span.data) :
    Increasing spans' l := by
  refine List.Pairwise.imp_of_mem (fun {u v} hu hv huv x y hx hy => ?_) h
  have hu' := hd u hu
  have hv' := hd v hv
  rw [hx, Option.map_some, eq_comm, Option.map_eq_some_iff] at hu'
  rw [hy, Option.map_some, eq_comm, Option.map_eq_some_iff] at hv'
  obtain ⟨x', hx', ex⟩ := hu'
  obtain ⟨y', hy', ey⟩ := hv'
  rw [← (Span.data_inj ex).1, ← (Span.data_inj ey).1]
  exact huv x' y' hx' hy'

/-- **Inserting a span** puts it into its list at the place its start has; every other span keeps
its data, and the spans off the list are untouched. -/
theorem PageHeap.insert_spec {h : PageHeap} {n : Nat} {l : List SpanId} (hn : n ≤ maxPages)
    (hx : h.spans s = some x) (hl : SpanList h.spans (h.freeLists n) l) (hs : s ∉ l)
    (hids : ∀ t ∈ l, t < h.nextId) (hinc : Increasing h.spans l)
    (hne : ∀ t ∈ l, ∀ y, h.spans t = some y → y.start ≠ x.start) :
    ∃ a b spans' head', l = a ++ b ∧
      h.insert n s = some { h with
        spans := spans', freeLists := Function.update h.freeLists n head' } ∧
      SpanList spans' head' (a ++ s :: b) ∧ Increasing spans' (a ++ s :: b) ∧
      (∀ t, t ∉ l → t ≠ s → spans' t = h.spans t) ∧
      (∀ t, t ≠ s → (spans' t).map Span.data = (h.spans t).map Span.data) ∧
      (∃ p c, spans' s = some { x with isFree := true, next := c, prev := p }) := by
  -- clearing `s` first does not touch the list
  have hag : ∀ t ∈ l, (h.set s { x with isFree := true, next := none, prev := none }).spans t =
      h.spans t := fun t ht => by
    have : t ≠ s := fun e => hs (e ▸ ht)
    simp [PageHeap.set, this]
  have hlen : l.length < h.walkFuel :=
    Nat.lt_succ_of_le (length_le_of_nodup_lt hl.nodup hids)
  obtain ⟨a, b, rfl, hw, ha, hb⟩ := insertWalk_spec x.start (hl.congr hag).linked
    (hl.congr hag).exist hlen
  rw [Option.or_none] at hw
  have mema : ∀ q, a.getLast? = some q → q ∈ a := fun q e => List.mem_of_getLast? e
  have memb : ∀ q, b.head? = some q → q ∈ b := fun q e => List.mem_of_mem_head? e
  have hex : ∀ q ∈ a ++ b, q ≠ s ∧ ∃ y, h.spans q = some y := fun q hq =>
    ⟨fun e => hs (e ▸ hq), hl.exist q hq⟩
  have hdisj : ∀ q, b.head? = some q → a.getLast? ≠ some q := fun q hq ha' =>
    (List.nodup_append.mp hl.nodup).2.2 q (mema q ha') q (memb q hq) rfl
  have hhead : h.freeLists n = (a ++ b).head? := hl.linked.head_eq
  have hins := PageHeap.insert_eq (h := h) hn hx (p := a.getLast?) (c := b.head?)
    (fun hd e => by rw [← e]; exact hw)
    (fun e => by
      have : a ++ b = [] := by rw [e] at hhead; exact List.head?_eq_none_iff.mp hhead.symm
      simp only [List.append_eq_nil_iff] at this
      simp [this])
    (fun e => by
      rw [hhead] at e
      cases a with
      | nil => exact .inr e
      | cons u us => exact .inl (by simp))
    (fun q e => hex q (List.mem_append_left _ (mema q e)))
    (fun q e => ⟨(hex q (List.mem_append_right _ (memb q e))).1, hdisj q e,
      (hex q (List.mem_append_right _ (memb q e))).2⟩)
  have hdata : ∀ t, t ≠ s → (linkedIn h.spans s x a.getLast? b.head? t).map Span.data =
      (h.spans t).map Span.data := fun t ht => by
    cases e : h.spans t <;> simp [linkedIn, ht, e, Span.data]
  have hexist : ∀ t ∈ a ++ b, ∃ y, linkedIn h.spans s x a.getLast? b.head? t = some y :=
    fun t ht => by
      obtain ⟨hts, y, hy⟩ := hex t ht
      exact ⟨_, by simp only [linkedIn, if_neg hts, hy, Option.map_some]; rfl⟩
  have hif : (if a.getLast? = none then some s else h.freeLists n) =
      if a = [] then some s else h.freeLists n := by simp
  rw [hif] at hins
  have hmem : ∀ t, t ∈ a ++ s :: b ↔ t = s ∨ t ∈ a ++ b := fun t => by
    simp only [List.mem_append, List.mem_cons]; tauto
  refine ⟨a, b, _, _, rfl, hins, ⟨?_, ?_, fun t ht => ?_⟩, ?_, fun t ht hts => ?_, hdata, ?_⟩
  · -- the four link words around `s`
    refine hl.linked.insert hl.nodup hs ?_ ?_ (fun t ht => ?_) (fun t ht => ?_)
    · simp [nextOf, linkedIn]
    · simp [prevOf, linkedIn]
    · obtain ⟨hts, y, hy⟩ := hex t ht
      simp [nextOf, linkedIn, hts, hy]
    · obtain ⟨hts, y, hy⟩ := hex t ht
      simp [prevOf, linkedIn, hts, hy]
  · exact (List.perm_middle.nodup_iff).mpr (List.nodup_cons.mpr ⟨hs, hl.nodup⟩)
  · rcases (hmem t).mp ht with rfl | ht
    · exact ⟨_, by simp only [linkedIn, if_true]; rfl⟩
    · exact hexist t ht
  · have hab : Increasing (linkedIn h.spans s x a.getLast? b.head?) (a ++ b) :=
      hinc.congr fun t ht => hdata t (hex t ht).1
    obtain ⟨hia, hib, hiab⟩ := List.pairwise_append.mp hab
    have hstart : ∀ t ∈ a ++ b, ∀ y, linkedIn h.spans s x a.getLast? b.head? t = some y →
        ∃ z, h.spans t = some z ∧ z.start = y.start := fun t ht y hy => by
      obtain ⟨hts, z, hz⟩ := hex t ht
      have := hdata t hts
      rw [hy, hz, Option.map_some, Option.map_some] at this
      exact ⟨z, hz, (Span.data_inj (Option.some.inj this)).1.symm⟩
    have hsx : ∀ z, linkedIn h.spans s x a.getLast? b.head? s = some z → z.start = x.start :=
      fun z hz => by simp only [linkedIn, if_true, Option.some.injEq] at hz; rw [← hz]
    have hbig : ∀ t ∈ b, ∀ y, h.spans t = some y → x.start < y.start := fun t ht y hy => by
      cases b with
      | nil => simp at ht
      | cons c cs =>
          have hsc := (hex c (by simp)).1
          obtain ⟨z, hz⟩ := (hex c (by simp)).2
          have hcz := hb c (by simp) z (by rw [hag c (by simp)]; exact hz)
          rcases List.mem_cons.mp ht with rfl | ht
          · obtain rfl := Option.some.inj (hz.symm.trans hy)
            exact hcz
          · have hp := (List.pairwise_cons.mp (List.pairwise_append.mp hinc).2.1).1 t ht z y hz hy
            exact hcz.trans hp
    refine List.pairwise_append.mpr ⟨hia, List.pairwise_cons.mpr ⟨fun t ht u v hu hv => ?_, hib⟩,
      fun t ht u hu v w hv hw => ?_⟩
    · obtain ⟨z, hz, ez⟩ := hstart t (List.mem_append_right _ ht) v hv
      rw [hsx u hu, ← ez]
      exact hbig t ht z hz
    · rcases List.mem_cons.mp hu with rfl | hu
      · obtain ⟨z, hz, ez⟩ := hstart t (List.mem_append_left _ ht) v hv
        rw [hsx w hw, ← ez]
        have hle := ha t ht z (by rw [hag t (List.mem_append_left _ ht)]; exact hz)
        exact lt_of_le_of_ne hle (hne t (List.mem_append_left _ ht) z hz)
      · exact hiab t ht u hu v w hv hw
  · have htp : a.getLast? ≠ some t := fun e => ht (List.mem_append_left _ (mema t e))
    have htn : b.head? ≠ some t := fun e => ht (List.mem_append_right _ (memb t e))
    cases e : h.spans t <;> simp [linkedIn, hts, e, htp, htn]
  · exact ⟨a.getLast?, b.head?, by simp only [linkedIn, if_true]⟩

/-! ### A new head -/

/-- The spans after `s`, which is now `w`, is put in front of the list from `head`. -/
def pushed (spans : SpanId → Option Span) (head : Option SpanId) (s : SpanId) (w : Span) :
    SpanId → Option Span :=
  fun t =>
    if t = s then some w
    else (spans t).map fun y => if head = some t then { y with prev := some s } else y

theorem pushed_self {w : Span} : pushed spans head s w s = some w := if_pos rfl

/-- Pushing changes a `prev` pointer besides `s`. -/
theorem pushed_data (spans : SpanId → Option Span) (head : Option SpanId) (w : Span)
    (ht : t ≠ s) :
    (pushed spans head s w t).map Span.data = (spans t).map Span.data := by
  rw [pushed, if_neg ht]
  cases spans t with
  | none => rfl
  | some y =>
      by_cases hh : head = some t
      · simp [hh, Span.data]
      · simp [hh]

theorem pushed_of_ne {w : Span} (ht : t ≠ s) (hh : head ≠ some t) :
    pushed spans head s w t = spans t := by
  rw [pushed, if_neg ht]
  cases spans t with
  | none => rfl
  | some y => simp [hh]

theorem SpanList.push {w : Span} (hl : SpanList spans head l) (hs : s ∉ l)
    (hn : w.next = head) (hp : w.prev = none) :
    SpanList (pushed spans head s w) (some s) (s :: l) := by
  have hne : ∀ t ∈ l, t ≠ s := fun t ht e => hs (e ▸ ht)
  have hhead := hl.linked.head_eq
  refine ⟨?_, List.nodup_cons.mpr ⟨hs, hl.nodup⟩, fun t ht => ?_⟩
  · have hl₀ : Linked (nextOf spans) (prevOf spans) none head ([] ++ l) := hl.linked
    refine hl₀.insert hl.nodup hs ?_ ?_ (fun t ht => ?_) fun t ht => ?_
    · rw [nextOf_eq pushed_self, hn, hhead]
    · rw [prevOf_eq pushed_self, hp]
      rfl
    · obtain ⟨y, hy⟩ := hl.exist t ht
      by_cases hh : head = some t
      · simp [nextOf, pushed, hne t ht, hy, hh]
      · simp [nextOf, pushed, hne t ht, hy, hh]
    · obtain ⟨y, hy⟩ := hl.exist t ht
      rw [← hhead]
      by_cases hh : head = some t
      · simp [prevOf, pushed, hne t ht, hy, hh]
      · simp [prevOf, pushed, hne t ht, hy, hh]
  · rcases List.mem_cons.mp ht with rfl | ht
    · exact ⟨w, pushed_self⟩
    · obtain ⟨y, hy⟩ := hl.exist t ht
      exact ⟨_, by rw [pushed, if_neg (hne t ht), hy]; rfl⟩

end TieredAllocator
