import Mathlib.Algebra.Order.Ring.Int
import Mathlib.Data.List.Basic

/-!
# A list kept in chunks

A long list is often kept in pieces that each know where they start: the blocks of a
file, the segments of a log, the nodes of a rope.  `Chunked holds n bs as` says that
`bs` keep the list `as`, whose elements are numbered from `n` on, when `holds b m c`
says that the piece `b` keeps the list `c` from number `m` on.  No piece is empty.

## Main definitions

* `Chunked` — the pieces keep the list.

## Main results

* `Chunked.append_iff`, `Chunked.concat_iff` — cutting between two pieces.
* `Chunked.locate` — the piece with the given number.
* `Chunked.key_mem`, `Chunked.exists_split` — where the pieces start.
-/

namespace K2Graph

open List

variable {α β γ : Type} {holds : β → ℤ → List α → Prop}

/-- The pieces keep the list, numbered from `n` on. -/
inductive Chunked (holds : β → ℤ → List α → Prop) : ℤ → List β → List α → Prop
  | nil (n : ℤ) : Chunked holds n [] []
  | cons {n : ℤ} {b : β} {bs : List β} {c as : List α} : holds b n c → c ≠ [] →
      Chunked holds (n + c.length) bs as → Chunked holds n (b :: bs) (c ++ as)

namespace Chunked

variable {bs : List β} {as : List α}

theorem eq_nil_iff (h : Chunked holds n bs as) : bs = [] ↔ as = [] := by
  cases h with
  | nil => simp
  | cons _ hc _ => simp [hc]

theorem singleton (hb : holds b n c) (hc : c ≠ []) : Chunked holds n [b] c := by
  rw [← append_nil c]
  exact .cons hb hc (.nil _)

theorem append_iff : Chunked holds n (bs ++ bs') as ↔
    ∃ a z, as = a ++ z ∧ Chunked holds n bs a ∧ Chunked holds (n + a.length) bs' z := by
  induction bs generalizing n as with
  | nil =>
    constructor
    · intro h
      exact ⟨[], as, rfl, .nil n, by simpa using h⟩
    · rintro ⟨a, z, rfl, ha, hz⟩
      cases ha
      simpa using hz
  | cons b bs ih =>
    constructor
    · intro h
      cases h with
      | @cons _ _ _ c as' hb hc hrest =>
        obtain ⟨a, z, rfl, ha, hz⟩ := ih.mp hrest
        refine ⟨c ++ a, z, by rw [append_assoc], .cons hb hc ha, ?_⟩
        rw [length_append]
        push_cast
        rwa [← add_assoc]
    · rintro ⟨a, z, rfl, ha, hz⟩
      cases ha with
      | @cons _ _ _ c a' hb hc hrest =>
        rw [append_assoc]
        refine .cons hb hc (ih.mpr ⟨a', z, rfl, hrest, ?_⟩)
        rw [length_append] at hz
        push_cast at hz
        rwa [← add_assoc] at hz

theorem cons_iff : Chunked holds n (b :: bs) as ↔
    ∃ c z, as = c ++ z ∧ holds b n c ∧ c ≠ [] ∧ Chunked holds (n + c.length) bs z := by
  constructor
  · intro h
    cases h with
    | cons hb hc hrest => exact ⟨_, _, rfl, hb, hc, hrest⟩
  · rintro ⟨c, z, rfl, hb, hc, hrest⟩
    exact .cons hb hc hrest

theorem concat_iff : Chunked holds n (bs ++ [b]) as ↔
    ∃ a c, as = a ++ c ∧ Chunked holds n bs a ∧ holds b (n + a.length) c ∧ c ≠ [] := by
  rw [append_iff]
  constructor
  · rintro ⟨a, z, rfl, ha, hz⟩
    obtain ⟨c, z', rfl, hb, hc, hrest⟩ := cons_iff.mp hz
    cases hrest
    exact ⟨a, c, by rw [append_nil], ha, hb, hc⟩
  · rintro ⟨a, c, rfl, ha, hb, hc⟩
    exact ⟨a, c, rfl, ha, singleton hb hc⟩

theorem map {holds' : γ → ℤ → List α → Prop} (hf : ∀ b m c, holds b m c → holds' (f b) m c)
    (h : Chunked holds n bs as) : Chunked holds' n (bs.map f) as := by
  induction h with
  | nil n => exact .nil n
  | cons hb hc _ ih => exact .cons (hf _ _ _ hb) hc ih

theorem exists_holds (h : Chunked holds n bs as) (hb : b ∈ bs) :
    ∃ m c, holds b m c ∧ c ≠ [] := by
  induction h with
  | nil n => simp at hb
  | cons hb' hc _ ih =>
    rcases mem_cons.mp hb with rfl | hmem
    · exact ⟨_, _, hb', hc⟩
    · exact ih hmem

section Key

variable {key : β → ℤ}

section

variable (hkey : ∀ b m c, holds b m c → key b = m)
include hkey

section

variable (h : Chunked holds n bs as)
include h

theorem key_mem (hb : b ∈ bs) : n ≤ key b ∧ key b < n + as.length := by
  induction h with
  | nil n => simp at hb
  | @cons n b' bs c as hb' hc hrest ih =>
    have hpos : 0 < c.length := length_pos_iff.mpr hc
    rw [length_append]
    rcases mem_cons.mp hb with rfl | hmem
    · rw [hkey _ _ _ hb']
      omega
    · obtain ⟨h1, h2⟩ := ih hmem
      omega

theorem exists_split (i : ℤ) :
    ∃ pre post, bs = pre ++ post ∧ (∀ b ∈ pre, key b < i) ∧ ∀ b ∈ post, i ≤ key b := by
  induction h with
  | nil n => exact ⟨[], [], rfl, by simp, by simp⟩
  | @cons n b bs c as hb hc hrest ih =>
    rcases lt_or_ge n i with hi | hi
    · obtain ⟨pre, post, rfl, hpre, hpost⟩ := ih
      exact ⟨b :: pre, post, rfl, forall_mem_cons.mpr ⟨by rwa [hkey _ _ _ hb], hpre⟩, hpost⟩
    · refine ⟨[], b :: bs, rfl, by simp, fun b' hb' => ?_⟩
      have := ((cons hb hc hrest).key_mem hkey hb').1
      omega

/-- The piece with the number `i`, and those around it. -/
theorem locate (hlow : n ≤ i) (hhigh : i < n + as.length) :
    ∃ pre b post a c z, bs = pre ++ b :: post ∧ as = a ++ (c ++ z) ∧ Chunked holds n pre a ∧
      key b = n + a.length ∧ holds b (key b) c ∧ c ≠ [] ∧
      Chunked holds (key b + c.length) post z ∧ key b ≤ i ∧ i < key b + c.length := by
  induction h with
  | nil n =>
    rw [length_nil] at hhigh
    omega
  | @cons n b bs c as hb hc hrest ih =>
    have hbn := hkey _ _ _ hb
    rcases lt_or_ge i (n + c.length) with hi | hi
    · refine ⟨[], b, bs, [], c, as, rfl, rfl, .nil n, by simpa using hbn, ?_, hc, ?_⟩
      · rwa [hbn]
      · rw [hbn]
        exact ⟨hrest, hlow, hi⟩
    rw [length_append] at hhigh
    obtain ⟨pre, b', post, a, c', z, rfl, rfl, hpre, hb', hrest'⟩ := ih hi (by omega)
    refine ⟨b :: pre, b', post, c ++ a, c', z, rfl, by rw [append_assoc], .cons hb hc hpre, ?_,
      hrest'⟩
    rw [length_append]
    omega

theorem lt_of_forall_key (hbs : ∀ b ∈ bs, i < key b) (hend : i < n + as.length) : i < n := by
  cases h with
  | nil => simpa using hend
  | cons hb _ _ =>
    rw [← hkey _ _ _ hb]
    exact hbs _ (by simp)

end

end

end Key

end Chunked

end K2Graph
