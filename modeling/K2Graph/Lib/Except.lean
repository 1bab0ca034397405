import Mathlib.Data.List.Forall2

/-!
# Computations that may fail

The inversion rule for `Except`, by which a computation that has succeeded is taken
apart step by step.

## Main results

* `exists_of_bind_eq_ok` — both parts of a computation have succeeded.
* `mapM_eq_ok_iff` — a computation for every element of a list.
-/

namespace K2Graph

open List

variable {α β ε : Type} {f : α → Except ε β}

theorem exists_of_bind_eq_ok (h : (x >>= f) = .ok b) : ∃ a, x = .ok a ∧ f a = .ok b := by
  cases x with
  | error e => cases h
  | ok a => exact ⟨a, rfl, h⟩

@[simp] theorem ok_bind (a : α) (f : α → Except ε β) : (Except.ok a >>= f) = f a := rfl

theorem exists_map_eq_ok_iff {x : Except ε α} {f : α → β} :
    (∃ b, (do let a ← x; return f a) = Except.ok b) ↔ ∃ a, x = .ok a := by
  constructor
  · rintro ⟨b, h⟩
    obtain ⟨a, ha, -⟩ := exists_of_bind_eq_ok h
    exact ⟨a, ha⟩
  · rintro ⟨a, rfl⟩
    exact ⟨f a, rfl⟩

theorem exists_bind_bind_eq_ok_iff {x : Except ε α} {f : α → β → γ} :
    (∃ c, (do let a ← x; let b ← y; return f a b) = Except.ok c) ↔
      (∃ a, x = .ok a) ∧ ∃ b, y = .ok b := by
  constructor
  · rintro ⟨c, h⟩
    obtain ⟨a, ha, h⟩ := exists_of_bind_eq_ok h
    obtain ⟨b, hb, -⟩ := exists_of_bind_eq_ok h
    exact ⟨⟨a, ha⟩, b, hb⟩
  · rintro ⟨⟨a, rfl⟩, b, rfl⟩
    exact ⟨f a b, rfl⟩

variable {xs : List α}

theorem mapM_eq_ok_iff : xs.mapM f = .ok ys ↔ List.Forall₂ (fun x y => f x = .ok y) xs ys := by
  induction xs generalizing ys with
  | nil =>
    rw [forall₂_nil_left_iff]
    constructor
    · rintro ⟨⟩
      rfl
    · rintro rfl
      rfl
  | cons x xs ih =>
    rw [mapM_cons]
    constructor
    · intro h
      obtain ⟨y, hy, h⟩ := exists_of_bind_eq_ok h
      obtain ⟨zs, hzs, h⟩ := exists_of_bind_eq_ok h
      cases h
      exact .cons hy (ih.mp hzs)
    · rintro (_ | ⟨hy, hys⟩)
      rw [hy, ih.mpr hys]
      rfl

theorem exists_mapM_eq_ok_iff (f : α → Except ε β) (xs : List α) :
    (∃ ys, xs.mapM f = .ok ys) ↔ ∀ x ∈ xs, ∃ y, f x = .ok y := by
  simp only [mapM_eq_ok_iff]
  induction xs with
  | nil => exact ⟨fun _ _ h => absurd h not_mem_nil, fun _ => ⟨[], .nil⟩⟩
  | cons x xs ih =>
    rw [forall_mem_cons, ← ih]
    constructor
    · rintro ⟨_, _ | ⟨hy, hys⟩⟩
      exact ⟨⟨_, hy⟩, _, hys⟩
    · rintro ⟨⟨y, hy⟩, ys, hys⟩
      exact ⟨y :: ys, .cons hy hys⟩

theorem flatten_mapM_map {γ : Type} {k : γ → α} {f : α → Except ε (List β)} {g : γ → List β}
    {xs : List γ} (h : ∀ x ∈ xs, f (k x) = .ok (g x)) :
    (do let ys ← (xs.map k).mapM f; return ys.flatten) = Except.ok (xs.flatMap g) := by
  have hall : (xs.map k).mapM f = .ok (xs.map g) := by
    rw [mapM_eq_ok_iff, forall₂_map_left_iff, forall₂_map_right_iff, forall₂_same]
    exact h
  rw [hall]
  rfl

/-- The same for `Option`. -/
theorem mapM_of_forall₂ {α β : Type} {f : α → Option β} {xs : List α} {ys : List β}
    (h : List.Forall₂ (fun x y => f x = some y) xs ys) : xs.mapM f = some ys := by
  induction h with
  | nil => rfl
  | cons hxy _ ih => rw [mapM_cons, hxy, ih]; rfl

variable {f : α → Except ε (List β)}

theorem mem_flatten_of_mapM (h : xs.mapM f = .ok ys) :
    b ∈ ys.flatten ↔ ∃ x ∈ xs, ∃ y, f x = .ok y ∧ b ∈ y := by
  rw [mapM_eq_ok_iff] at h
  induction h with
  | nil => simp
  | cons hy hys ih =>
    rw [flatten_cons, mem_append, ih, exists_mem_cons_iff]
    refine or_congr_left ⟨fun hb => ⟨_, hy, hb⟩, ?_⟩
    rintro ⟨y', hy', hb⟩
    rw [hy] at hy'
    cases hy'
    exact hb

theorem mem_flatten_iff_of_mapM {f : α → Except ε (List β)} {xs : List α} {ys : List (List β)}
    {b : β} {p : α → Prop} (h : xs.mapM f = .ok ys)
    (hp : ∀ x ∈ xs, ∀ y, f x = .ok y → (b ∈ y ↔ p x)) : b ∈ ys.flatten ↔ ∃ x ∈ xs, p x := by
  rw [mem_flatten_of_mapM h]
  constructor
  · rintro ⟨x, hx, y, hy, hb⟩
    exact ⟨x, hx, (hp x hx y hy).mp hb⟩
  · rintro ⟨x, hx, hpx⟩
    obtain ⟨y, hy⟩ := (exists_mapM_eq_ok_iff f xs).mp ⟨ys, h⟩ x hx
    exact ⟨x, hx, y, hy, (hp x hx y hy).mpr hpx⟩

theorem error_of_bind_eq_error {f : α → Except ε β} (h : x >>= f = .error err) :
    x = .error err ∨ ∃ a, x = .ok a ∧ f a = .error err := by
  cases x with
  | error _ =>
    cases h
    exact .inl rfl
  | ok a => exact .inr ⟨a, rfl, h⟩

theorem pairwise_flatten_of_mapM (h : xs.mapM f = .ok ys)
    (hin : ∀ x ∈ xs, ∀ y, f x = .ok y → y.Pairwise r)
    (hout : xs.Pairwise fun x x' => ∀ y y', f x = .ok y → f x' = .ok y' → ∀ b ∈ y, ∀ b' ∈ y',
      r b b') :
    ys.flatten.Pairwise r := by
  have hall := h
  rw [mapM_eq_ok_iff] at hall
  induction hall with
  | nil => exact .nil
  | @cons x y xs ys hy hys ih =>
    obtain ⟨hx, hxs⟩ := pairwise_cons.mp hout
    have hrest : xs.mapM f = .ok ys := mapM_eq_ok_iff.mpr hys
    rw [flatten_cons, pairwise_append]
    refine ⟨hin x mem_cons_self y hy, ?_, fun b hb b' hb' => ?_⟩
    · exact ih hrest (fun x' hx' => hin x' (mem_cons_of_mem x hx')) hxs
    · obtain ⟨x', hx', y', hy', hmem⟩ := (mem_flatten_of_mapM hrest).mp hb'
      exact hx x' hx' y y' hy hy' b hb b' hmem

theorem exists_of_mapM_eq_error {f : α → Except ε β} (h : xs.mapM f = .error err) :
    ∃ x ∈ xs, f x = .error err := by
  induction xs with
  | nil => cases h
  | cons x xs ih =>
    rw [mapM_cons] at h
    rcases error_of_bind_eq_error h with hx | ⟨y, -, h⟩
    · exact ⟨x, mem_cons_self, hx⟩
    rcases error_of_bind_eq_error h with hxs | ⟨ys, -, h⟩
    · obtain ⟨z, hz, hfz⟩ := ih hxs
      exact ⟨z, mem_cons_of_mem x hz, hfz⟩
    · cases h

end K2Graph
