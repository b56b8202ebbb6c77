import AdaptiveRadix.SortedBytes
import Mathlib.Data.Nat.Init
import Mathlib.Tactic.Common

/-!
The searches in a row agree with a search from the front, whatever stands behind the first `n`
bytes, and the place that they answer for a new byte has the smaller bytes before it and the larger
ones behind it.
-/

namespace AdaptiveRadix.SortedBytes

theorem length_held {w n : Nat} {row : Vector UInt8 w} (hn : n ≤ w) : (held row n).length = n := by
  simp [held, hn]

theorem getElem?_held {w n : Nat} (row : Vector UInt8 w) (i : Nat) :
    (held row n)[i]? = if i < n then row[i]? else none := by
  rw [held, List.getElem?_take, Vector.getElem?_toList]

theorem getLsbD_equalLanes (key : UInt8) {lanes : List UInt8} (fits : lanes.length ≤ 32) (i : Nat) :
    (equalLanes key lanes).getLsbD i = decide (lanes[i]? = some key) := by
  induction lanes generalizing i with
  | nil => simp [equalLanes]
  | cons b lanes ih =>
    have fits' : lanes.length < 32 := fits
    have one (i : Nat) :
        (if b = key then 1 else 0 : BitVec 32).getLsbD i =
          (decide (i = 0) && decide (b = key)) := by
      split <;> simp [*]
    cases i with
    | zero =>
      have first := one 0
      simp only [equalLanes, BitVec.getLsbD_or, BitVec.getLsbD_shiftLeft, first]
      simp
    | succ i =>
      have beyond : ¬i + 1 < 32 → lanes[i]? ≠ some key := by
        intro h
        rw [List.getElem?_eq_none (by omega)]
        exact nofun
      simp only [equalLanes, BitVec.getLsbD_or, BitVec.getLsbD_shiftLeft, one, ih (by omega)]
      by_cases h : i + 1 < 32 <;> simp_all

theorem getLsbD_firstLanes {n : Nat} (hn : n ≤ 16) (i : Nat) :
    (BitVec.ofNat 32 (1 <<< n) - 1).getLsbD i = decide (i < n) := by
  have small : 2 ^ n < 2 ^ 32 := Nat.pow_lt_pow_right (by decide) (by omega)
  have value : (BitVec.ofNat 32 (1 <<< n) - 1).toNat = 2 ^ n - 1 := by
    have one : (1 : BitVec 32).toNat = 1 := rfl
    have := Nat.one_le_two_pow (n := n)
    rw [BitVec.toNat_sub, BitVec.toNat_ofNat, Nat.one_shiftLeft, Nat.mod_eq_of_lt small, one]
    omega
  rw [BitVec.getLsbD, value, Nat.testBit_two_pow_sub_one]

theorem findInLanes_eq (key : UInt8) (row : Vector UInt8 16) {n : Nat} (hn : n ≤ 16) :
    findInLanes key row n = findFromFront key (held row n) := by
  let hits := equalLanes key row.toList &&& (BitVec.ofNat 32 (1 <<< n) - 1)
  have lane (i : Nat) : hits.getLsbD i = decide ((held row n)[i]? = some key) := by
    rw [BitVec.getLsbD_and, getLsbD_equalLanes key (by simp), getLsbD_firstLanes hn,
      getElem?_held, Vector.getElem?_toList]
    split <;> simp [*]
  change (if hits = 0 then none else some hits.ctz.toNat) = _
  symm
  by_cases none_equal : hits = 0
  · rw [if_pos none_equal, findFromFront, List.findIdx?_eq_none_iff]
    intro b hb
    obtain ⟨i, hi⟩ := List.getElem?_of_mem hb
    have := lane i
    rw [none_equal, hi] at this
    simpa using this.symm
  · rw [if_neg none_equal, findFromFront, List.findIdx?_eq_some_iff_getElem]
    have first := BitVec.getLsbD_true_ctz_of_ne_zero none_equal
    rw [lane, decide_eq_true_eq] at first
    obtain ⟨bound, equal⟩ := List.getElem?_eq_some_iff.1 first
    refine ⟨bound, by simpa using equal, fun j hj same => ?_⟩
    have earlier := BitVec.getLsbD_false_of_lt_ctz hj
    rw [lane, decide_eq_false_iff_not, List.getElem?_eq_getElem (by omega)] at earlier
    exact earlier (by simpa using same)

/-- Halving ends at the last position that goes up, or at the first of all. -/
theorem halve_position {goesUp : UInt8 → Bool} {bytes : List UInt8}
    (closed : ∀ (i j : Nat) b c, i ≤ j → bytes[i]? = some b → bytes[j]? = some c → goesUp c →
      goesUp b)
    {base size : Nat} (pos : 0 < size) (fits : base + size ≤ bytes.length) :
    base ≤ halve goesUp bytes base size ∧ halve goesUp bytes base size < base + size ∧
      (halve goesUp bytes base size = base ∨ bytes[halve goesUp bytes base size]?.any goesUp) ∧
      ∀ i, halve goesUp bytes base size < i → i < base + size → ¬bytes[i]?.any goesUp := by
  fun_induction halve goesUp bytes base size with
  | case1 base size small => exact ⟨by omega, by omega, .inl rfl, by omega⟩
  | case2 base size large mid ih =>
    by_cases up : bytes[mid]?.any goesUp
    · simp only [up, ↓reduceDIte, ↓reduceIte] at ih ⊢
      obtain ⟨low, high, last, beyond⟩ := ih (by omega) (by omega)
      refine ⟨by omega, by omega, .inr ?_, fun i hi hb => beyond i hi (by omega)⟩
      rcases last with last | last
      · rwa [last]
      · exact last
    · simp only [up, Bool.false_eq_true, ↓reduceDIte, ↓reduceIte] at ih ⊢
      obtain ⟨low, high, last, beyond⟩ := ih (by omega) (by omega)
      refine ⟨low, by omega, last, fun i hi hb => ?_⟩
      by_cases inside : i < base + (size - size / 2)
      · exact beyond i hi inside
      · intro above
        apply up
        rw [List.getElem?_eq_getElem (by omega), Option.any_some] at above ⊢
        exact closed mid i _ _ (by omega) (List.getElem?_eq_getElem (by omega))
          (List.getElem?_eq_getElem (by omega)) above

theorem halve_lt {goesUp : UInt8 → Bool} {bytes : List UInt8} {base size : Nat} (pos : 0 < size) :
    halve goesUp bytes base size < base + size := by
  fun_induction halve goesUp bytes base size with
  | case1 base size small => omega
  | case2 base size large mid ih =>
    by_cases up : bytes[mid]?.any goesUp
    · simp only [up, ↓reduceDIte, ↓reduceIte] at ih ⊢
      have := ih (by omega)
      omega
    · simp only [up, Bool.false_eq_true, ↓reduceDIte, ↓reduceIte] at ih ⊢
      have := ih (by omega)
      omega

/-- The bytes before place `i` are the ones below `key`. -/
def IsCut (key : UInt8) (bytes : List UInt8) (i : Nat) : Prop :=
  i ≤ bytes.length ∧ ∀ (j : Nat) b, bytes[j]? = some b → (b < key ↔ j < i)

section Ascending

variable {bytes : List UInt8} (ascending : bytes.Pairwise (· < ·))

include ascending

theorem lt_of_getElem? {i j : Nat} {b c : UInt8} (hij : i < j) (hb : bytes[i]? = some b)
    (hc : bytes[j]? = some c) : b < c := by
  obtain ⟨hi, rfl⟩ := List.getElem?_eq_some_iff.1 hb
  obtain ⟨hj, rfl⟩ := List.getElem?_eq_some_iff.1 hc
  exact List.pairwise_iff_getElem.1 ascending i j hi hj hij

theorem eq_of_getElem? {i j : Nat} {b : UInt8} (hi : bytes[i]? = some b)
    (hj : bytes[j]? = some b) : i = j := by
  rcases Nat.lt_trichotomy i j with h | h | h
  · exact absurd (lt_of_getElem? ascending h hi hj) (UInt8.lt_irrefl b)
  · exact h
  · exact absurd (lt_of_getElem? ascending h hj hi) (UInt8.lt_irrefl b)

theorem findFromFront_eq_some_iff {key : UInt8} {i : Nat} :
    findFromFront key bytes = some i ↔ bytes[i]? = some key := by
  rw [findFromFront, List.findIdx?_eq_some_iff_getElem]
  constructor
  · rintro ⟨bound, equal, -⟩
    rw [List.getElem?_eq_getElem bound]
    simpa using equal
  · intro h
    obtain ⟨bound, equal⟩ := List.getElem?_eq_some_iff.1 h
    refine ⟨bound, by simpa using equal, fun j hj same => ?_⟩
    have : bytes[j]? = some key := by
      rw [List.getElem?_eq_getElem (by omega)]
      simpa using same
    have := eq_of_getElem? ascending this h
    omega

theorem goesUp_of_le (goesUp : UInt8 → Bool) (closed : ∀ b c, b < c → goesUp c → goesUp b)
    (i j : Nat) (b c : UInt8) (hij : i ≤ j) (hb : bytes[i]? = some b) (hc : bytes[j]? = some c)
    (up : goesUp c) : goesUp b := by
  rcases Nat.lt_or_eq_of_le hij with lt | rfl
  · exact closed b c (lt_of_getElem? ascending lt hb hc) up
  · rwa [Option.some.inj (hb.symm.trans hc)]

theorem findByHalving_eq_some_iff {key : UInt8} {i : Nat} :
    findByHalving key bytes = some i ↔ bytes[i]? = some key := by
  have closed := goesUp_of_le ascending (· ≤ key) fun b c lt up =>
    decide_eq_true (UInt8.le_trans (UInt8.le_of_lt lt) (of_decide_eq_true up))
  simp only [findByHalving]
  constructor
  · intro found
    split at found
    · next here => rwa [← Option.some.inj found]
    · contradiction
  · intro here
    obtain ⟨hi, -⟩ := List.getElem?_eq_some_iff.1 here
    have whole : 0 + bytes.length ≤ bytes.length := Nat.le_of_eq (Nat.zero_add _)
    obtain ⟨-, high, last, beyond⟩ := halve_position closed (Nat.zero_lt_of_lt hi) whole
    generalize halve (· ≤ key) bytes 0 bytes.length = p at *
    have inside : p < bytes.length := by omega
    have same : p = i := by
      rcases Nat.lt_trichotomy p i with lower | same | higher
      · exact absurd (by simp [here]) (beyond i lower (by omega))
      · exact same
      · rcases last with rfl | last
        · omega
        · rw [List.getElem?_eq_getElem inside, Option.any_some, decide_eq_true_eq] at last
          have := lt_of_getElem? ascending higher here (List.getElem?_eq_getElem inside)
          exact absurd last (UInt8.not_le.2 this)
    rw [same, if_pos here]

theorem isCut_countBelowByHalving (key : UInt8) :
    IsCut key bytes (countBelowByHalving key bytes) := by
  have closed := goesUp_of_le ascending (· < key) fun b c lt up =>
    decide_eq_true (UInt8.lt_trans lt (of_decide_eq_true up))
  rcases Nat.eq_zero_or_pos bytes.length with empty | pos
  · rw [List.eq_nil_of_length_eq_zero empty]
    exact ⟨by simp [countBelowByHalving, halve], by simp⟩
  have whole : 0 + bytes.length ≤ bytes.length := Nat.le_of_eq (Nat.zero_add _)
  obtain ⟨-, high, last, beyond⟩ := halve_position closed pos whole
  simp only [countBelowByHalving]
  generalize halve (· < key) bytes 0 bytes.length = p at *
  have inside : p < bytes.length := by omega
  by_cases up : bytes[p]?.any (· < key)
  · rw [if_pos up]
    refine ⟨inside, fun j b hb => ⟨fun below => ?_, fun hj => ?_⟩⟩
    · by_contra far
      have hj := (List.getElem?_eq_some_iff.1 hb).1
      exact beyond j (by omega) (by omega) (by simpa [hb] using below)
    · rw [List.getElem?_eq_getElem inside, Option.any_some] at up
      simpa using closed j p b _ (by omega) hb (List.getElem?_eq_getElem inside) up
  · rw [if_neg up]
    refine ⟨by omega, fun j b hb => ⟨fun below => ?_, fun hj => ?_⟩⟩
    · by_contra far
      have hj := (List.getElem?_eq_some_iff.1 hb).1
      rcases Nat.eq_or_lt_of_le (Nat.not_lt.1 far) with rfl | far
      · exact up (by simpa [hb] using below)
      · exact beyond j far (by omega) (by simpa [hb] using below)
    -- the halving ends at a byte that fails the test only if it is the first of all
    · rcases last with rfl | last
      · omega
      · exact absurd last up

theorem isCut_countBelowFromFront {key : UInt8} (absent : key ∉ bytes) :
    IsCut key bytes (countBelowFromFront key bytes) := by
  refine ⟨List.findIdx_le_length, fun j b hb => ?_⟩
  obtain ⟨bound, rfl⟩ := List.getElem?_eq_some_iff.1 hb
  constructor
  · intro below
    by_contra far
    have inside : countBelowFromFront key bytes < bytes.length := by omega
    have above : key < bytes[countBelowFromFront key bytes] := by
      have : decide (key < bytes[countBelowFromFront key bytes]) = true :=
        List.findIdx_getElem (w := inside)
      exact of_decide_eq_true this
    rcases Nat.eq_or_lt_of_le (Nat.not_lt.1 far) with same | far
    · simp only [← same] at below
      exact UInt8.lt_asymm above below
    · have := List.pairwise_iff_getElem.1 ascending _ _ inside bound far
      exact UInt8.lt_asymm (UInt8.lt_trans above this) below
  · intro hj
    have low : ¬key < bytes[j] := by
      have : decide (key < bytes[j]) = false := by
        simpa using List.not_of_lt_findIdx hj
      exact of_decide_eq_false this
    have different : bytes[j] ≠ key := fun h => absent (h ▸ List.getElem_mem bound)
    exact UInt8.lt_of_le_of_ne (UInt8.not_lt.1 low) different

end Ascending

theorem isCut_append {key : UInt8} {front back : List UInt8} :
    IsCut key (front ++ back) front.length ↔
      (∀ b ∈ front, b < key) ∧ ∀ b ∈ back, ¬b < key := by
  constructor
  · rintro ⟨-, cut⟩
    refine ⟨fun b hb => ?_, fun b hb below => ?_⟩
    · obtain ⟨j, here⟩ := List.getElem?_of_mem hb
      have hj : j < front.length := (List.getElem?_eq_some_iff.1 here).1
      exact (cut j b (by rwa [List.getElem?_append_left hj])).2 hj
    · obtain ⟨j, here⟩ := List.getElem?_of_mem hb
      have hj := (cut (front.length + j) b (by
        rwa [List.getElem?_append_right (Nat.le_add_right ..), Nat.add_sub_cancel_left])).1 below
      omega
  · rintro ⟨low, high⟩
    refine ⟨by simp, fun j b here => ⟨fun below => ?_, fun hj => ?_⟩⟩
    · by_contra far
      rw [List.getElem?_append_right (Nat.not_lt.1 far)] at here
      exact high b (List.mem_of_getElem? here) below
    · rw [List.getElem?_append_left hj] at here
      exact low b (List.mem_of_getElem? here)

theorem IsCut.exists_append {key : UInt8} {bytes : List UInt8} {i : Nat} (h : IsCut key bytes i) :
    ∃ front back, bytes = front ++ back ∧ front.length = i :=
  ⟨bytes.take i, bytes.drop i, (List.take_append_drop i bytes).symm, List.length_take_of_le h.1⟩

theorem IsCut.eq_countP {key : UInt8} {bytes : List UInt8} {i : Nat} (h : IsCut key bytes i) :
    i = bytes.countP (· < key) := by
  obtain ⟨front, back, rfl, rfl⟩ := h.exists_append
  obtain ⟨low, high⟩ := isCut_append.1 h
  have all : front.countP (· < key) = front.length :=
    List.countP_eq_length.2 fun b hb => decide_eq_true (low b hb)
  have none_behind : back.countP (· < key) = 0 :=
    List.countP_eq_zero.2 fun b hb below => high b hb (of_decide_eq_true below)
  rw [List.countP_append, all, none_behind, Nat.add_zero]

theorem pairwise_insertIdx_iff {key : UInt8} {bytes : List UInt8} {i : Nat}
    (ascending : bytes.Pairwise (· < ·)) (absent : key ∉ bytes) (fits : i ≤ bytes.length) :
    (bytes.insertIdx i key).Pairwise (· < ·) ↔ IsCut key bytes i := by
  obtain ⟨front, back, rfl, rfl, inserted⟩ := List.exists_of_modifyTailIdx (List.cons key) fits
  obtain ⟨low, high, apart⟩ := List.pairwise_append.1 ascending
  rw [isCut_append, List.insertIdx, inserted, List.pairwise_append, List.pairwise_cons]
  have above (b : UInt8) (hb : b ∈ back) : key < b ↔ ¬b < key := by
    have different : b ≠ key := fun same => absent (same ▸ List.mem_append_right front hb)
    exact ⟨UInt8.lt_asymm, fun h => UInt8.lt_of_le_of_ne (UInt8.not_lt.1 h) different.symm⟩
  constructor
  · rintro ⟨-, ⟨larger, -⟩, across⟩
    exact ⟨fun b hb => across b hb key List.mem_cons_self, fun b hb => (above b hb).1 (larger b hb)⟩
  · rintro ⟨smaller, larger⟩
    refine ⟨low, ⟨fun b hb => (above b hb).2 (larger b hb), high⟩, fun b hb => ?_⟩
    exact List.forall_mem_cons.2 ⟨smaller b hb, apart b hb⟩

theorem position?_eq_some_iff {key : UInt8} {w n i : Nat} {row : Vector UInt8 w} (hn : n ≤ w)
    (ascending : (held row n).Pairwise (· < ·)) :
    position? key row n = some i ↔ (held row n)[i]? = some key := by
  rw [← findFromFront_eq_some_iff ascending]
  unfold position?
  split
  · rw [findInLanes_eq key _ hn]
  · rfl

theorem scalarPosition?_eq_some_iff {key : UInt8} {w n i : Nat} {row : Vector UInt8 w}
    (ascending : (held row n).Pairwise (· < ·)) :
    scalarPosition? key row n = some i ↔ (held row n)[i]? = some key := by
  unfold scalarPosition?
  split
  · exact findByHalving_eq_some_iff ascending
  · exact findFromFront_eq_some_iff ascending

theorem isCut_insertPosition {key : UInt8} {w n : Nat} {row : Vector UInt8 w}
    (ascending : (held row n).Pairwise (· < ·)) (absent : key ∉ held row n) :
    IsCut key (held row n) (insertPosition key row n) := by
  unfold insertPosition
  split
  · exact isCut_countBelowByHalving ascending key
  · exact isCut_countBelowFromFront ascending absent

theorem countBelowByHalving_le (key : UInt8) (bytes : List UInt8) :
    countBelowByHalving key bytes ≤ bytes.length := by
  rw [countBelowByHalving]
  rcases Nat.eq_zero_or_pos bytes.length with empty | pos
  · rw [List.eq_nil_of_length_eq_zero empty]
    simp [halve]
  · have inside : halve (· < key) bytes 0 bytes.length < 0 + bytes.length := halve_lt pos
    split <;> omega

theorem insertPosition_le (key : UInt8) {w : Nat} (row : Vector UInt8 w) (n : Nat) :
    insertPosition key row n ≤ n := by
  unfold insertPosition
  split
  · exact Nat.le_trans (countBelowByHalving_le ..) (List.length_take_le ..)
  · exact Nat.le_trans List.findIdx_le_length (List.length_take_le ..)

theorem getElem?_of_position?_eq_some {key : UInt8} {w n i : Nat} {row : Vector UInt8 w}
    (hn : n ≤ w) (found : position? key row n = some i) : (held row n)[i]? = some key := by
  have found : findFromFront key (held row n) = some i := by
    unfold position? at found
    split at found
    · rwa [findInLanes_eq key _ hn] at found
    · exact found
  obtain ⟨bound, equal, -⟩ := List.findIdx?_eq_some_iff_getElem.1 found
  rw [List.getElem?_eq_getElem bound, of_decide_eq_true equal]

theorem lt_of_position?_eq_some {key : UInt8} {w n i : Nat} {row : Vector UInt8 w} (hn : n ≤ w)
    (found : position? key row n = some i) : i < n := by
  obtain ⟨bound, -⟩ := List.getElem?_eq_some_iff.1 (getElem?_of_position?_eq_some hn found)
  rwa [length_held hn] at bound

/-- Every search finds a byte in the same place, the one that it has among the first `n`, and a byte
that is not there belongs behind the smaller ones and nowhere else. -/
theorem searches_of_ascending {w n : Nat} {row : Vector UInt8 w} (hn : n ≤ w)
    (ascending : (held row n).Pairwise (· < ·)) (key : UInt8) :
    (∀ i, position? key row n = some i ↔ i < n ∧ row[i]? = some key) ∧
      scalarPosition? key row n = position? key row n ∧
      (key ∉ held row n →
        insertPosition key row n = (held row n).countP (· < key) ∧
          ∀ i ≤ n, ((held row n).insertIdx i key).Pairwise (· < ·) ↔
            i = insertPosition key row n) := by
  refine ⟨fun i => ?_, Option.ext fun i => ?_, fun absent => ?_⟩
  · rw [position?_eq_some_iff hn ascending, getElem?_held]
    by_cases hi : i < n <;> simp [hi]
  · rw [scalarPosition?_eq_some_iff ascending, position?_eq_some_iff hn ascending]
  · have cut := isCut_insertPosition ascending absent
    refine ⟨cut.eq_countP, fun i hi => ?_⟩
    rw [pairwise_insertIdx_iff ascending absent (by rwa [length_held hn])]
    constructor
    · exact fun h => h.eq_countP.trans cut.eq_countP.symm
    · rintro rfl
      exact cut

def lastsLikeKey : Vector UInt8 16 :=
  #v[3, 127, 128, 255, 200, 0, 200, 200, 200, 1, 200, 200, 200, 200, 200, 200]

theorem searches_of_ascending_lastsLikeKey :
    (held lastsLikeKey 4).Pairwise (· < ·) ∧ position? 200 lastsLikeKey 4 = none ∧
      scalarPosition? 200 lastsLikeKey 4 = none ∧ insertPosition 200 lastsLikeKey 4 = 3 ∧
      position? 128 lastsLikeKey 4 = some 2 := by
  have ascending : (held lastsLikeKey 4).Pairwise (· < ·) := by decide
  obtain ⟨position, scalar, insert⟩ := searches_of_ascending (by decide) ascending 200
  have others : ∀ i < 4, lastsLikeKey[i]? ≠ some 200 := by decide
  have absent : position? 200 lastsLikeKey 4 = none :=
    Option.eq_none_iff_forall_ne_some.2 fun i found =>
      others i ((position i).1 found).1 ((position i).1 found).2
  refine ⟨ascending, absent, scalar.trans absent, (insert (by decide)).1.trans (by decide), ?_⟩
  exact ((searches_of_ascending (by decide) ascending 128).1 2).2 (by decide)

end AdaptiveRadix.SortedBytes
