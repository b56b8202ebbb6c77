import AdaptiveRadix.Bitset
import Mathlib.Data.List.Induction
import Mathlib.Tactic.Common

/-!
A bit set as a set of positions: setting and clearing change one position, the first empty position
is the least one that is clear, and the size is the number of those that are set.
-/

namespace AdaptiveRadix.Bitset

variable {w n : Nat}

theorem width_pos {p : Nat} (h : p < n * w) : 0 < w :=
  Nat.pos_of_mul_pos_left (Nat.zero_lt_of_lt h)

theorem getLsbD_bit (p : Nat) {i : Nat} (hi : i < w) :
    (bit p : BitVec w).getLsbD i = decide (p % w = i) := by
  rw [bit, BitVec.natCast_eq_ofNat, BitVec.getLsbD_ofNat, Nat.one_shiftLeft, Nat.testBit_two_pow]
  simp [hi]

def word (s : Bitset w n) {p : Nat} (h : p < n * w) : BitVec w :=
  have := word_lt h
  s.words[p / w]

theorem check_eq (s : Bitset w n) {p : Nat} (h : p < n * w) :
    s.check p = .ok ((s.word h).getLsbD (p % w)) := by
  have inside : p % w < w := Nat.mod_lt p (width_pos h)
  refine (dif_pos h).trans (congrArg Except.ok ?_)
  change (s.word h &&& bit p != 0) = _
  generalize s.word h = word
  rw [Bool.eq_iff_iff, bne_iff_ne]
  constructor
  · intro different
    by_contra clear
    apply different
    apply BitVec.eq_of_getLsbD_eq
    intro i hi
    rw [BitVec.getLsbD_and, getLsbD_bit p hi]
    by_cases same : p % w = i
    · simpa [← same] using clear
    · simp [same]
  · intro holds zero
    have := congrArg (·.getLsbD (p % w)) zero
    simp only [BitVec.getLsbD_and, getLsbD_bit p inside] at this
    simp [holds] at this

theorem check_of_le (s : Bitset w n) {p : Nat} (h : n * w ≤ p) : s.check p = .error .outOfBounds :=
  dif_neg (Nat.not_lt.2 h)

theorem eq_of_div_of_mod {p q : Nat} (hd : q / w = p / w) (hm : q % w = p % w) : q = p := by
  rw [← Nat.div_add_mod q w, ← Nat.div_add_mod p w, hd, hm]

theorem check_setWord (s : Bitset w n) {p : Nat} (hp : p < n * w) {new : BitVec w} {value : Bool}
    (hword : ∀ i < w, new.getLsbD i =
      if p % w = i then value else (s.word hp).getLsbD i) (q : Nat) :
    check ⟨s.words.set (p / w) new (word_lt hp)⟩ q = if q = p then .ok value else s.check q := by
  by_cases hq : q < n * w
  · have inside : q % w < w := Nat.mod_lt q (width_pos hq)
    rw [check_eq _ hq]
    by_cases hd : q / w = p / w
    · simp only [word, hd, Vector.getElem_set_self, hword _ inside]
      by_cases hm : q % w = p % w
      · rw [if_pos hm.symm, if_pos (eq_of_div_of_mod hd hm)]
      · have other : q ≠ p := fun h => hm (congrArg (· % w) h)
        rw [if_neg (Ne.symm hm), if_neg other, check_eq s hq]
        simp only [word, hd]
    · have other : q ≠ p := fun h => hd (congrArg (· / w) h)
      rw [if_neg other, check_eq s hq, word, Vector.getElem_set_ne _ _ (Ne.symm hd), word]
  · have other : q ≠ p := fun h => hq (h ▸ hp)
    rw [if_neg other, check_of_le _ (Nat.not_lt.1 hq), check_of_le _ (Nat.not_lt.1 hq)]

theorem set_eq_ok (s : Bitset w n) {p : Nat} (hp : p < n * w) :
    ∃ t, s.set p = .ok t ∧ ∀ q, t.check q = if q = p then .ok true else s.check q := by
  refine ⟨_, dif_pos hp, check_setWord s hp fun i hi => ?_⟩
  rw [BitVec.getLsbD_or, getLsbD_bit p hi]
  by_cases same : p % w = i <;> simp [word, same]

theorem unset_eq_ok (s : Bitset w n) {p : Nat} (hp : p < n * w) :
    ∃ t, s.unset p = .ok t ∧ ∀ q, t.check q = if q = p then .ok false else s.check q := by
  refine ⟨_, dif_pos hp, check_setWord s hp fun i hi => ?_⟩
  rw [BitVec.getLsbD_and, BitVec.getLsbD_not, getLsbD_bit p hi]
  by_cases same : p % w = i <;> simp [word, same, hi]

theorem getLsbD_of_eq_allOnes {word : BitVec w} (full : word = BitVec.allOnes w) {i : Nat}
    (hi : i < w) : word.getLsbD i = true := by
  rw [full, BitVec.getLsbD_allOnes, decide_eq_true hi]

theorem lowest_clear {word : BitVec w} (clear : word ≠ BitVec.allOnes w) :
    (~~~word).ctz.toNat < w ∧ word.getLsbD (~~~word).ctz.toNat = false ∧
      ∀ i < (~~~word).ctz.toNat, word.getLsbD i = true := by
  have nonzero : ~~~word ≠ 0#w := fun h => clear (by rw [← BitVec.not_not (b := word), h]; simp)
  have first := BitVec.getLsbD_true_ctz_of_ne_zero nonzero
  simp only [BitVec.getLsbD_not, Bool.and_eq_true, decide_eq_true_eq, Bool.not_eq_true'] at first
  refine ⟨first.1, first.2, fun i hi => ?_⟩
  have earlier := BitVec.getLsbD_false_of_lt_ctz hi
  have inside : i < w := Nat.lt_trans hi first.1
  simpa [inside] using earlier

theorem check_of_lt (s : Bitset w n) {i j : Nat} (hi : i < n) (hj : j < w) :
    s.check (i * w + j) = .ok (s.words[i].getLsbD j) := by
  have pos : 0 < w := Nat.zero_lt_of_lt hj
  have bound : i * w + j < n * w := calc
    i * w + j < i * w + w := Nat.add_lt_add_left hj _
    _ = (i + 1) * w := (Nat.succ_mul i w).symm
    _ ≤ n * w := Nat.mul_le_mul_right w hi
  have hd : (i * w + j) / w = i := by
    rw [Nat.mul_comm, Nat.mul_add_div pos, Nat.div_eq_of_lt hj, Nat.add_zero]
  have hm : (i * w + j) % w = j := by
    rw [Nat.mul_comm, Nat.mul_add_mod, Nat.mod_eq_of_lt hj]
  rw [check_eq s bound]
  simp only [word, hd, hm]

theorem check_of_full (s : Bitset w n) {p : Nat} (h : p < n * w)
    (full : s.words.toList[p / w]? = some (BitVec.allOnes w)) : s.check p = .ok true := by
  have here : s.word h = BitVec.allOnes w := by
    simpa [word, Vector.getElem?_toList, word_lt h] using full
  rw [check_eq s h, getLsbD_of_eq_allOnes here (Nat.mod_lt p (width_pos h))]

theorem firstEmpty_eq_some {s : Bitset w n} {p : Nat} (h : s.firstEmpty = some p) :
    s.check p = .ok false ∧ ∀ q < p, s.check q = .ok true := by
  obtain ⟨before, ⟨word, i⟩, after, parts, found, full⟩ := List.findSome?_eq_some_iff.1 h
  obtain ⟨front, back, words, rfl, tail⟩ := List.zipIdx_eq_append_iff.1 parts
  obtain ⟨word', back', rfl, head, -⟩ := List.zipIdx_eq_cons_iff.1 tail.symm
  obtain ⟨rfl, rfl⟩ : word = word' ∧ i = front.length := by simpa using head
  have clear : word ≠ BitVec.allOnes w := fun same => by simp [same] at found
  obtain rfl : front.length * w + (~~~word).ctz.toNat = p := by simpa [clear] using found
  obtain ⟨inside, lowest, earlier⟩ := lowest_clear clear
  have bound : front.length < n := by
    have := congrArg List.length words
    simp at this
    omega
  have total : front.length * w + w ≤ n * w := by
    rw [← Nat.succ_mul]
    exact Nat.mul_le_mul_right w bound
  have here : s.words[front.length] = word := by
    have : s.words.toList[front.length]? = some word := by rw [words]; simp
    simpa [Vector.getElem?_toList, bound] using this
  have position (i : Nat) (hi : i < w) :
      s.check (front.length * w + i) = .ok (word.getLsbD i) := by
    rw [check_of_lt s bound hi, here]
  refine ⟨by rw [position _ inside, lowest], fun q hq => ?_⟩
  -- `q` is in one of the full words before, or in the same word below its lowest clear bit
  rcases Nat.lt_or_ge q (front.length * w) with low | high
  · have hd : q / w < front.length := Nat.div_lt_of_lt_mul (by rwa [Nat.mul_comm])
    apply check_of_full s (by omega)
    rw [words, List.getElem?_append_left hd]
    have member : (front[q / w], q / w) ∈ front.zipIdx := by
      rw [List.mk_mem_zipIdx_iff_getElem?, List.getElem?_eq_getElem hd]
    simpa [hd] using full _ member
  · obtain ⟨i, rfl⟩ := Nat.exists_eq_add_of_le high
    rw [position i (by omega), earlier i (by omega)]

theorem firstEmpty_eq_none {s : Bitset w n} (h : s.firstEmpty = none) {p : Nat} (hp : p < n * w) :
    s.check p = .ok true := by
  apply check_of_full s hp
  have bound : p / w < s.words.toList.length := by simpa using word_lt hp
  have member : (s.words.toList[p / w], p / w) ∈ s.words.toList.zipIdx := by
    rw [List.mk_mem_zipIdx_iff_getElem?, List.getElem?_eq_getElem bound]
  rw [List.getElem?_eq_getElem bound]
  simpa using List.findSome?_eq_none_iff.1 h _ member

theorem toNat_cpop (word : BitVec w) :
    word.cpop.toNat = (List.range w).countP fun i => word.getLsbD i := by
  have below (k : Nat) : word.cpopNatRec k 0 = (List.range k).countP fun i => word.getLsbD i := by
    induction k with
    | zero => rfl
    | succ k ih =>
      rw [BitVec.cpopNatRec_succ, BitVec.cpopNatRec_eq, ih, List.range_succ, List.countP_append,
        List.countP_singleton]
      cases word.getLsbD k <;> simp
  rw [BitVec.toNat_cpop, below]

theorem foldl_cpop (words : List (BitVec w)) :
    words.foldl (fun total word => total + word.cpop.toNat) 0 =
      (List.range (words.length * w)).countP fun p =>
        (words[p / w]?).any (·.getLsbD (p % w)) := by
  induction words using List.reverseRecOn with
  | nil => simp
  | append_singleton words word ih =>
    rw [List.foldl_append, ih, List.length_append, List.length_singleton, Nat.succ_mul,
      List.range_add, List.countP_append, List.countP_map, List.foldl_cons, List.foldl_nil,
      toNat_cpop]
    refine congrArg₂ (· + ·) (List.countP_congr fun p hp => ?_) (List.countP_congr fun i hi => ?_)
    · have bound : p / w < words.length :=
        Nat.div_lt_of_lt_mul (Nat.mul_comm _ w ▸ List.mem_range.1 hp)
      rw [List.getElem?_append_left bound]
    · have inside := List.mem_range.1 hi
      have pos : 0 < w := Nat.zero_lt_of_lt inside
      have quotient : (words.length * w + i) / w = words.length := by
        rw [Nat.mul_comm, Nat.mul_add_div pos, Nat.div_eq_of_lt inside, Nat.add_zero]
      have remainder : (words.length * w + i) % w = i := by
        rw [Nat.mul_comm, Nat.mul_add_mod, Nat.mod_eq_of_lt inside]
      simp [quotient, remainder]

theorem size_eq (s : Bitset w n) :
    s.size = (List.range (n * w)).countP fun p => s.check p = .ok true := by
  rw [size, foldl_cpop, Vector.length_toList]
  refine List.countP_congr fun p hp => ?_
  have bound := List.mem_range.1 hp
  rw [check_eq s bound, Vector.getElem?_toList, Vector.getElem?_eq_getElem (word_lt bound)]
  simp [word]

end AdaptiveRadix.Bitset
