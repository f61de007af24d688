import Mathlib.Tactic
import TieredAllocator.Lib.Runs

/-!
# Library — arenas

What a best-fit allocator of runs of units is for, without its lists, its index and its objects.
An `Arena` says which areas there are: the length of the one at each start, and whether it is in use
and with which tag.  A request is served from the best fit, whose rest stays free, or by a new area;
an area that is given back joins the free ones on both sides of it, and the whole is cut into pieces
of at most `limit` units (`pieces`).

`system` is deterministic but for new areas: the other labels that are allowed in a state are those
whose numbers the state gives.
-/

namespace TieredAllocator.Lib

/-- An area: its length, and its tag if it is in use. -/
structure Area where
  len : Nat
  use : Option Nat
deriving DecidableEq

/-- The area at each start. -/
abbrev Arena := Nat → Option Area

namespace Arena

variable {A : Arena} {limit n p q l r start len total : Nat}

/-- The area at `p` is free, and the best of those with `n` units: the shortest, and of these the
first. -/
def BestFit (A : Arena) (n p len : Nat) : Prop :=
  A p = some ⟨len, none⟩ ∧ n ≤ len ∧ ∀ q m, A q = some ⟨m, none⟩ → n ≤ m →
    len < m ∨ len = m ∧ p ≤ q

/-- `l` units are free right before `q`, as one area. -/
def FreeBefore (A : Arena) (q l : Nat) : Prop :=
  (l = 0 ∧ ∀ p m, A p = some ⟨m, none⟩ → p + m ≠ q) ∨ 0 < l ∧ l ≤ q ∧ A (q - l) = some ⟨l, none⟩

/-- `r` units are free from `q` on, as one area. -/
def FreeFrom (A : Arena) (q r : Nat) : Prop :=
  (r = 0 ∧ ∀ m, A q ≠ some ⟨m, none⟩) ∨ 0 < r ∧ A q = some ⟨r, none⟩

/-- The first `n` units of the free area at `p` come into use. -/
def reuse (A : Arena) (n tag p len : Nat) : Arena := fun q =>
  if q = p then some ⟨n, some tag⟩
  else if q = p + n ∧ n < len then some ⟨len - n, none⟩
  else A q

/-- `total` units from `start` are free, in pieces of `limit` and a rest. -/
def pieces (limit : Nat) (A : Arena) (start total : Nat) : Arena := fun q =>
  if start ≤ q ∧ q < start + total then
    if limit ∣ q - start then some ⟨min limit (start + total - q), none⟩ else none
  else A q

theorem reuse_self (A : Arena) (n tag p len : Nat) :
    A.reuse n tag p len p = some ⟨n, some tag⟩ := if_pos rfl

theorem pieces_of_out (h : ¬ (start ≤ q ∧ q < start + total)) :
    pieces limit A start total q = A q :=
  if_neg h

/-- Where a piece begins. -/
theorem pieces_of_in (h₁ : start ≤ q) (h₂ : q < start + total) (m : Nat) (o : Option Nat) :
    pieces limit A start total q = some ⟨m, o⟩ ↔
      o = none ∧ limit ∣ q - start ∧ m = min limit (start + total - q) := by
  rw [pieces, if_pos ⟨h₁, h₂⟩]
  by_cases hd : limit ∣ q - start
  · rw [if_pos hd]
    simp only [Option.some.injEq, Area.mk.injEq, hd, true_and]
    exact ⟨fun ⟨h, h'⟩ => ⟨h'.symm, h.symm⟩, fun ⟨h, h'⟩ => ⟨h'.symm, h.symm⟩⟩
  · rw [if_neg hd]
    simp [hd]

/-! ### Taking and giving back -/

/-- No two areas overlap, and each has between 1 and `limit` units. -/
structure Apart (limit : Nat) (A : Arena) : Prop where
  bounds : ∀ q a, A q = some a → 0 < a.len ∧ a.len ≤ limit
  disjoint : ∀ p q a b, p < q → A p = some a → A q = some b → p + a.len ≤ q

theorem freeFrom_unique {r' : Nat} (h : A.FreeFrom q r) (h' : A.FreeFrom q r') : r = r' := by
  rcases h with ⟨rfl, hno⟩ | ⟨-, hr⟩ <;> rcases h' with ⟨rfl, hno'⟩ | ⟨-, hr'⟩
  · rfl
  · exact absurd hr' (hno _)
  · exact absurd hr (hno' _)
  · exact (Area.mk.inj (Option.some.inj (hr.symm.trans hr'))).1

section TakeAndGive
variable (hA : A.Apart limit) {tag : Nat}
include hA

theorem Apart.freeBefore_unique {l' : Nat} (h : A.FreeBefore q l) (h' : A.FreeBefore q l') :
    l = l' := by
  rcases h with ⟨rfl, hno⟩ | ⟨hl, hle, hAl⟩ <;> rcases h' with ⟨rfl, hno'⟩ | ⟨hl', hle', hAl'⟩
  · rfl
  · exact absurd (by omega) (hno _ _ hAl')
  · exact absurd (by omega) (hno' _ _ hAl)
  · rcases Nat.lt_trichotomy (q - l) (q - l') with hlt | heq | hlt
    · have := hA.disjoint _ _ _ _ hlt hAl hAl'
      simp only at this
      omega
    · omega
    · have := hA.disjoint _ _ _ _ hlt hAl' hAl
      simp only at this
      omega

/-- What ends where the taken area begins is what did before. -/
theorem Apart.freeBefore_reuse (h : (A.reuse n tag p len).FreeBefore p l) : A.FreeBefore p l := by
  have hbelow : ∀ q, q < p → A.reuse n tag p len q = A q := by
    intro q hq
    rw [reuse, if_neg (by omega), if_neg (by omega)]
  rcases h with ⟨rfl, hno⟩ | ⟨hl, hle, hAl⟩
  · refine .inl ⟨rfl, fun q m hq hend => ?_⟩
    have hpos := (hA.bounds q _ hq).1
    simp only at hpos
    exact hno q m (by rw [hbelow q (by omega), hq]) hend
  · rw [hbelow _ (by omega)] at hAl
    exact .inr ⟨hl, hle, hAl⟩

omit hA in
/-- Behind the taken units is the rest of the area, or what was behind the area. -/
theorem freeFrom_reuse (hn : 0 < n) (hle : n ≤ len)
    (h : (A.reuse n tag p len).FreeFrom (p + n) r) :
    n < len ∧ r = len - n ∨ n = len ∧ A.FreeFrom (p + len) r := by
  rcases Nat.eq_or_lt_of_le hle with rfl | hlt
  · have hsame : A.reuse n tag p n (p + n) = A (p + n) := by
      rw [reuse, if_neg (by omega), if_neg (by omega)]
    rw [FreeFrom, hsame] at h
    exact .inr ⟨rfl, h⟩
  · have hrest : A.reuse n tag p len (p + n) = some ⟨len - n, none⟩ := by
      rw [reuse, if_neg (by omega), if_pos ⟨rfl, hlt⟩]
    rw [FreeFrom, hrest] at h
    rcases h with ⟨-, hno⟩ | ⟨-, heq⟩
    · exact absurd rfl (hno _)
    · exact .inl ⟨hlt, (Area.mk.inj (Option.some.inj heq)).1.symm⟩

/-- The areas that begin in a free area and its free neighbours are these. -/
theorem Apart.starts {a : Area} (hp : A p = some ⟨len, none⟩) (hl : A.FreeBefore p l)
    (hr : r = 0 ∨ 0 < r ∧ A (p + len) = some ⟨r, none⟩) (hq : A q = some a) (h₁ : p - l ≤ q)
    (h₂ : q < p + len + r) :
    q = p - l ∨ q = p ∨ q = p + len := by
  have hpq := (hA.bounds q a hq).1
  rcases Nat.lt_trichotomy q p with hlt | heq | hlt
  · rcases hl with ⟨rfl, -⟩ | ⟨hl, hle, hAl⟩
    · omega
    · rcases Nat.eq_or_lt_of_le h₁ with heq | hlt'
      · exact .inl heq.symm
      · have := hA.disjoint _ _ _ _ hlt' hAl hq
        simp only at this
        omega
  · exact .inr (.inl heq)
  · have hin := hA.disjoint _ _ _ _ hlt hp hq
    simp only at hin
    rcases hr with rfl | ⟨hr, hAr⟩
    · omega
    · rcases Nat.eq_or_lt_of_le hin with heq | hlt'
      · exact .inr (.inr heq.symm)
      · have := hA.disjoint _ _ _ _ hlt' hAr hq
        simp only at this
        omega

/-- **Round trip.**  Cutting a free area, the free one before it and the free one behind it, if that
is joined, into pieces changes nothing exactly when the area before it, if there is one, is full,
and so is the area itself, if the one behind it is joined. -/
theorem Apart.pieces_eq_iff (hp : A p = some ⟨len, none⟩) (hl : A.FreeBefore p l)
    (hr : r = 0 ∨ 0 < r ∧ A (p + len) = some ⟨r, none⟩) : pieces limit A (p - l) (l + len + r) = A ↔
      (l = 0 ∨ l = limit) ∧ (r = 0 ∨ len = limit) := by
  have hlen := hA.bounds p _ hp
  have hll : l ≤ limit ∧ l ≤ p := by
    rcases hl with ⟨rfl, -⟩ | ⟨-, hle, hAl⟩
    · exact ⟨Nat.zero_le _, Nat.zero_le _⟩
    · exact ⟨(hA.bounds _ _ hAl).2, hle⟩
  have hrl : r ≤ limit := by
    rcases hr with rfl | ⟨-, hAr⟩
    · exact Nat.zero_le _
    · exact (hA.bounds _ _ hAr).2
  simp only at hlen
  constructor
  · intro heq
    have hpiece : ∀ q m, A q = some ⟨m, none⟩ → p - l ≤ q → q < p - l + (l + len + r) →
        limit ∣ q - (p - l) ∧ m = min limit (p - l + (l + len + r) - q) := by
      intro q m hq h₁ h₂
      rw [← heq, pieces_of_in h₁ h₂] at hq
      exact hq.2
    have hmid := hpiece p len hp (by omega) (by omega)
    constructor
    · rcases hl with ⟨rfl, -⟩ | ⟨hl, -, hAl⟩
      · exact .inl rfl
      · have := (hpiece _ _ hAl (by omega) (by omega)).2
        omega
    · omega
  · rintro ⟨hl', hr'⟩
    funext q
    by_cases hq : p - l ≤ q ∧ q < p - l + (l + len + r)
    · cases hAq : A q with
      | none =>
          rw [pieces, if_pos hq, if_neg]
          rintro ⟨i, hi⟩
          -- the pieces begin where the areas do
          have hcase : q = p - l ∨ q = p ∨ (0 < r ∧ q = p + len) := by
            rcases Nat.lt_or_ge i 1 with h0 | h1
            · obtain rfl : i = 0 := by omega
              exact .inl (by omega)
            · rcases hl' with rfl | rfl
              · rcases Nat.eq_or_lt_of_le h1 with rfl | h2
                · omega
                · have := Nat.mul_le_mul_left limit h2
                  omega
              · rcases Nat.eq_or_lt_of_le h1 with rfl | h2
                · omega
                · rcases Nat.eq_or_lt_of_le h2 with rfl | h3
                  · omega
                  · have := Nat.mul_le_mul_left l h3
                    omega
          rcases hcase with rfl | rfl | ⟨hr0, rfl⟩
          · rcases hl with ⟨rfl, -⟩ | ⟨-, -, hAl⟩
            · rw [Nat.sub_zero, hp] at hAq
              cases hAq
            · rw [hAl] at hAq
              cases hAq
          · rw [hp] at hAq
            cases hAq
          · rcases hr with rfl | ⟨-, hAr⟩
            · omega
            · rw [hAr] at hAq
              cases hAq
      | some a =>
          obtain ⟨m, o⟩ := a
          rw [pieces_of_in hq.1 hq.2]
          rcases hA.starts hp hl hr hAq hq.1 (by omega) with rfl | rfl | rfl
          · rcases hl with ⟨rfl, -⟩ | ⟨hl0, -, hAl⟩
            · rw [Nat.sub_zero, hp] at hAq
              obtain ⟨rfl, rfl⟩ := Area.mk.inj (Option.some.inj hAq)
              exact ⟨rfl, ⟨0, by omega⟩, by omega⟩
            · rw [hAl] at hAq
              obtain ⟨rfl, rfl⟩ := Area.mk.inj (Option.some.inj hAq)
              exact ⟨rfl, ⟨0, by omega⟩, by omega⟩
          · rw [hp] at hAq
            obtain ⟨rfl, rfl⟩ := Area.mk.inj (Option.some.inj hAq)
            rcases hl' with rfl | rfl
            · exact ⟨rfl, ⟨0, by omega⟩, by omega⟩
            · exact ⟨rfl, ⟨1, by omega⟩, by omega⟩
          · rcases hr with rfl | ⟨hr0, hAr⟩
            · omega
            · rw [hAr] at hAq
              obtain ⟨rfl, rfl⟩ := Area.mk.inj (Option.some.inj hAq)
              rcases hl' with rfl | rfl
              · exact ⟨rfl, ⟨1, by omega⟩, by omega⟩
              · exact ⟨rfl, ⟨2, by omega⟩, by omega⟩
    · exact pieces_of_out hq

omit hA in
/-- Taking does not show in the pieces. -/
theorem pieces_reuse (hn : 0 < n) (hle : n ≤ len) (hlp : l ≤ p) :
    pieces limit (A.reuse n tag p len) (p - l) (l + len + r) =
      pieces limit A (p - l) (l + len + r) := by
  funext q
  by_cases hq : p - l ≤ q ∧ q < p - l + (l + len + r)
  · rw [pieces, pieces, if_pos hq, if_pos hq]
  · rw [pieces_of_out hq, pieces_of_out hq, reuse, if_neg (by omega), if_neg (by omega)]

end TakeAndGive

/-! ### Runs -/

inductive Event where
  | reuse (n tag p len : Nat)
  /-- a new area -/
  | extend (n tag p : Nat)
  | refuse (n tag : Nat)
  /-- the area at `p` comes back, with `l` free units before it and `r` behind it -/
  | giveBack (p l r : Nat)
  | drop (p : Nat)

/-- What the callers see of it. -/
inductive Shown where
  | asked (n tag : Nat) (p : Option Nat)
  | gaveBack (p : Nat)
  | dropped (p : Nat)
deriving DecidableEq

def Event.shown (_ : Arena) : Event → Option Shown
  | .reuse n tag p _ | .extend n tag p => some (.asked n tag (some p))
  | .refuse n tag => some (.asked n tag none)
  | .giveBack p _ _ => some (.gaveBack p)
  | .drop p => some (.dropped p)

/-- Requests for up to `limit` units are served; free areas are looked for only where the tag is
less than `tags`. -/
def Event.Allowed (limit tags : Nat) (A : Arena) : Event → Prop
  | .reuse n tag p len => 0 < n ∧ tag < tags ∧ A.BestFit n p len
  | .extend n tag p => 0 < n ∧ n ≤ limit ∧ (tag < tags → ∀ q m, A q = some ⟨m, none⟩ → m < n) ∧
      ∀ q a, A q = some a → p + n ≤ q ∨ q + a.len ≤ p
  | .refuse n tag => n = 0 ∨ limit < n ∨ (tag < tags → ∀ q m, A q = some ⟨m, none⟩ → m < n)
  | .giveBack p l r => ∃ m tag, A p = some ⟨m, some tag⟩ ∧ A.FreeBefore p l ∧ A.FreeFrom (p + m) r
  | .drop p => ∃ a, A p = some a

def Event.apply (limit : Nat) (A : Arena) : Event → Arena
  | .reuse n tag p len => A.reuse n tag p len
  | .extend n tag p => Function.update A p (some ⟨n, some tag⟩)
  | .refuse _ _ => A
  | .giveBack p l r => pieces limit A (p - l) (l + (A p).elim 0 Area.len + r)
  | .drop p => Function.update A p none

def system (limit tags : Nat) : System Arena Event where
  allowed := Event.Allowed limit tags
  step A e := some (e.apply limit A)

end Arena

end TieredAllocator.Lib
