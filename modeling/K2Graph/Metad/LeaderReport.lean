import K2Graph.Lib.Bytes

/-!
# Leader reports

A host's report of the parts it leads is stored as the spaces one after another, each with the
number of its parts and the parts.  `parseLeaderVal` goes on as long as more bytes are left than
a space and a number take.  A space without parts at the end has no more, and is lost.

## Main results

* `leaderRoundTrip_iff` — **a report is read back if and only if its last space has parts.**
* `not_leaderRoundTrip` — a report that is not.
-/

namespace K2Graph.Metad

open List LittleEndian

/-- `LeaderParts`: the spaces in the order in which the map is iterated. -/
structure LeaderParts where
  spaces : List (Int32 × List Int32)
  spaces_nodup : (spaces.map Prod.fst).Nodup
  /-- The number of parts is a `size_t`. -/
  length_lt : ∀ x ∈ spaces, x.2.length < 256 ^ 8

/-- The bytes of a space or a part. -/
def idBytes (id : Int32) : List UInt8 := ofInt 4 id.toInt

def spaceBytes (x : Int32 × List Int32) : List UInt8 :=
  idBytes x.1 ++ (ofNat 8 x.2.length ++ x.2.flatMap idBytes)

def leaderVal (m : LeaderParts) : List UInt8 := m.spaces.flatMap spaceBytes

/-- The loop over the parts of a space, on the bytes that are left; `none` is a read behind the
end. -/
def parseParts : ℕ → List UInt8 → Option (List Int32 × List UInt8)
  | 0, rest => some ([], rest)
  | leaderCount + 1, rest =>
      if rest = [] then some ([], rest)
      else if rest.length < 4 then none
      else (parseParts leaderCount (rest.drop 4)).map fun x =>
        (.ofInt (toInt (rest.take 4)) :: x.1, x.2)

def parseSpaces : ℕ → List UInt8 → Option (List (Int32 × List Int32))
  | 0, _ => some []
  | fuel + 1, rest =>
      if 12 < rest.length then
        (parseParts (toNat ((rest.drop 4).take 8)) (rest.drop 12)).bind fun x =>
          (parseSpaces fuel x.2).map ((.ofInt (toInt (rest.take 4)), x.1) :: ·)
      else some []

/-- `parseLeaderVal`.  Of two entries for a space the first one counts, since `emplace` replaces
nothing. -/
def parseLeaderVal (val : List UInt8) : Option (List (Int32 × List Int32)) :=
  parseSpaces val.length val

/-- **A report is read back**: as a map, it is the same. -/
def LeaderRoundTrip (m : LeaderParts) : Prop :=
  ∃ spaces, parseLeaderVal (leaderVal m) = some spaces ∧
    ∀ space, spaces.lookup space = m.spaces.lookup space

@[simp] theorem length_idBytes (id : Int32) : (idBytes id).length = 4 := length_ofInt ..

theorem idBytes_ne_nil (id : Int32) : idBytes id ≠ [] :=
  ne_nil_of_length_pos (by rw [length_idBytes]; decide)

theorem ofInt_toInt_idBytes (id : Int32) : Int32.ofInt (toInt (idBytes id)) = id := by
  rw [idBytes, toInt_ofInt ⟨by have := id.le_toInt; omega, by have := id.toInt_lt; omega⟩,
    Int32.ofInt_toInt]

theorem parseParts_append (parts : List Int32) (rest : List UInt8) :
    parseParts parts.length (parts.flatMap idBytes ++ rest) = some (parts, rest) := by
  induction parts with
  | nil => rfl
  | cons part parts ih =>
    have hlen := length_idBytes part
    rw [flatMap_cons, append_assoc, length_cons, parseParts, if_neg, if_neg,
      drop_left' hlen, ih, take_left' hlen]
    · simp [ofInt_toInt_idBytes]
    · simp
    · simp [idBytes_ne_nil]

theorem length_spaceBytes (x : Int32 × List Int32) :
    (spaceBytes x).length = 12 + (x.2.flatMap idBytes).length := by
  simp [spaceBytes]
  omega

/-- One space is read, unless it is the last one and has no parts. -/
theorem parseSpaces_cons (hx : x.2.length < 256 ^ 8) (hmore : x.2.flatMap idBytes ++ rest ≠ [])
    (fuel : ℕ) :
    parseSpaces (fuel + 1) (spaceBytes x ++ rest) = (parseSpaces fuel rest).map (x :: ·) := by
  have hpos := length_pos_iff.mpr hmore
  have hsplit : spaceBytes x ++ rest =
      idBytes x.1 ++ (ofNat 8 x.2.length ++ (x.2.flatMap idBytes ++ rest)) := by
    simp [spaceBytes]
  have hlen := length_idBytes x.1
  have hlen' : (ofNat 8 x.2.length).length = 8 := length_ofNat ..
  rw [parseSpaces, if_pos, hsplit, drop_left' hlen, take_left' hlen', toNat_ofNat hx,
    take_left' hlen, show 12 = 4 + 8 from rfl, ← drop_drop, drop_left' hlen, drop_left' hlen',
    parseParts_append, ofInt_toInt_idBytes]
  · rfl
  · rw [length_append] at hpos ⊢
    rw [length_spaceBytes]
    omega

theorem parseSpaces_append {spaces : List (Int32 × List Int32)}
    (hlen : ∀ x ∈ spaces, x.2.length < 256 ^ 8) (hrest : rest ≠ [])
    (hfuel : (spaces.flatMap spaceBytes ++ rest).length ≤ fuel) :
    ∃ fuel', rest.length ≤ fuel' ∧ parseSpaces fuel (spaces.flatMap spaceBytes ++ rest) =
      (parseSpaces fuel' rest).map (spaces ++ ·) := by
  induction spaces generalizing fuel with
  | nil => exact ⟨fuel, hfuel, by simp⟩
  | cons x spaces ih =>
    obtain ⟨hx, hlen⟩ := forall_mem_cons.mp hlen
    rw [flatMap_cons, append_assoc, length_append, length_spaceBytes] at hfuel
    obtain ⟨fuel, rfl⟩ := Nat.exists_eq_succ_of_ne_zero (show fuel ≠ 0 by omega)
    obtain ⟨fuel', hle, heq⟩ := ih hlen (show _ ≤ fuel by omega)
    refine ⟨fuel', hle, ?_⟩
    rw [flatMap_cons, append_assoc, parseSpaces_cons hx (by simp [hrest]), heq]
    cases parseSpaces fuel' rest <;> rfl

/-- **A report is read back if and only if its last space has parts.** -/
theorem leaderRoundTrip_iff (m : LeaderParts) :
    LeaderRoundTrip m ↔ ∀ x, m.spaces.getLast? = some x → x.2 ≠ [] := by
  obtain ⟨spaces, hnodup, hlen⟩ := m
  rcases eq_nil_or_concat' spaces with rfl | ⟨init, x, rfl⟩
  · exact iff_of_true ⟨[], rfl, fun _ => rfl⟩ (by simp)
  obtain ⟨hinit, hx⟩ := forall_mem_append.mp hlen
  have hbytes := length_spaceBytes x
  have hval : leaderVal ⟨_, hnodup, hlen⟩ = init.flatMap spaceBytes ++ spaceBytes x := by
    simp [leaderVal]
  obtain ⟨fuel, hle, hparse⟩ :=
    parseSpaces_append hinit (ne_nil_of_length_pos (show 0 < (spaceBytes x).length by omega)) le_rfl
  obtain ⟨fuel, rfl⟩ := Nat.exists_eq_succ_of_ne_zero (show fuel ≠ 0 by omega)
  rw [LeaderRoundTrip, parseLeaderVal, hval, hparse]
  simp only [getLast?_append, getLast?_singleton, Option.some_or, Option.some.injEq, forall_eq']
  by_cases hnil : x.2 = []
  · -- the last space is lost
    rw [parseSpaces, if_neg (by simp [hbytes, hnil])]
    refine iff_of_false ?_ (not_not.mpr hnil)
    rintro ⟨spaces, heq, hsame⟩
    cases heq
    have hnone : init.lookup x.1 = none := by
      rw [lookup_eq_none_iff]
      intro y hy
      rw [map_append, nodup_append] at hnodup
      simpa using (hnodup.2.2 y.1 (mem_map_of_mem hy) x.1 (by simp)).symm
    have hlost := hsame x.1
    cases x
    simp [lookup_append, hnone] at hlost
  · obtain ⟨part, parts, hparts⟩ := exists_cons_of_ne_nil hnil
    have hmore : x.2.flatMap idBytes ++ [] ≠ [] := by simp [hparts, idBytes_ne_nil]
    have hread := parseSpaces_cons (hx x mem_cons_self) hmore fuel
    rw [append_nil] at hread
    refine iff_of_true ⟨init ++ [x], ?_, fun _ => rfl⟩ hnil
    rw [hread]
    cases fuel <;> rfl

/-- **A report is not always read back**: of a host that leads no part of its one space. -/
theorem not_leaderRoundTrip : ¬ LeaderRoundTrip ⟨[(1, [])], by decide, by decide⟩ := by
  rintro ⟨spaces, hparse, hsame⟩
  cases hparse
  exact absurd (hsame 1) (by decide)

end K2Graph.Metad
