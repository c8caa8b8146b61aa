import V8Speak.StringSearchTables

/-!
# String search finds the first occurrence

Whatever the strategy, a search is a sequence of positions, each tested and then
left for a later one; it finds the first occurrence if it passes over none
(`IsFirst.skip`). The linear strategies move to the next position with the first
character of the pattern. The other two move by shifts, and a shift passes over
no occurrence if it passes over none of the positions where the characters
already read agree with the pattern: a single one for a bad character
(`not_occurs_badChar`), all that agree and the one that does not for a good
suffix (`not_occurs_goodSuffix`).

`Valid` says of a search object what its strategy relies on. The constructor
establishes it and every search keeps it, also one that changes the strategy
(`search_spec`), so that it holds for any number of searches with one object.
-/

open List Nat Option

namespace StringSearch

variable {p s w : CharWidth}

/-! ## First hits -/

/-- `r` is the first position from `index` on with `P`, or -1 if there is none. -/
def IsFirst (P : ℤ → Prop) (index r : ℤ) : Prop :=
  (index ≤ r ∧ P r ∧ ∀ k, index ≤ k → k < r → ¬P k) ∨ (r = -1 ∧ ∀ k, index ≤ k → ¬P k)

section First

variable {P : ℤ → Prop} {index next r : ℤ}

theorem IsFirst.here (h : P index) : IsFirst P index index :=
  .inl ⟨le_rfl, h, fun _ hk hlt => absurd hk (not_le.mpr hlt)⟩

theorem IsFirst.none (h : ∀ k, index ≤ k → ¬P k) : IsFirst P index (-1) := .inr ⟨rfl, h⟩

/-- **Moving on** over positions that are no hits. -/
theorem IsFirst.skip (h : IsFirst P next r) (hle : index ≤ next)
    (hnone : ∀ k, index ≤ k → k < next → ¬P k) : IsFirst P index r := by
  rcases h with ⟨hr, hP, hbefore⟩ | ⟨rfl, hall⟩
  · refine .inl ⟨hle.trans hr, hP, fun k hk hkr => ?_⟩
    rcases lt_or_ge k next with hlt | hge
    · exact hnone k hk hlt
    · exact hbefore k hge hkr
  · refine .none fun k hk => ?_
    rcases lt_or_ge k next with hlt | hge
    · exact hnone k hk hlt
    · exact hall k hge

end First

/-! ## Occurrences -/

variable {pattern : List (Character p)} {subject : List (Character s)}

/-- The pattern at `i` has the subject's character at its position `q`. -/
def Agrees (pattern : List (Character p)) (subject : List (Character s)) (i q : ℤ) : Prop :=
  (readVector subject (i + q)).map BitVec.toNat = (readVector pattern q).map BitVec.toNat

/-- The pattern occurs at `i`. -/
def Occurs (pattern : List (Character p)) (subject : List (Character s)) (i : ℤ) : Prop :=
  ∀ q : ℤ, 0 ≤ q → q < pattern.length → Agrees pattern subject i q

variable {a : Character p}

theorem agrees_iff {i q : ℤ} {b : Character s}
    (ha : readVector pattern q = some a) (hb : readVector subject (i + q) = some b) :
    Agrees pattern subject i q ↔ a.toNat = b.toNat := by
  rw [Agrees, ha, hb, map_some, map_some, some_inj, eq_comm]

/-- An occurrence ends within the subject. -/
theorem Occurs.le {i : ℤ} (h : Occurs pattern subject i) (hpattern : pattern ≠ []) :
    i ≤ subject.length - pattern.length := by
  have hlen := length_pos_iff.mpr hpattern
  obtain ⟨a, ha⟩ := exists_readVector (v := pattern) (i := pattern.length - 1) (by omega) (by omega)
  have hlast := h (pattern.length - 1) (by omega) (by omega)
  rw [Agrees, ha] at hlast
  obtain ⟨b, hb, -⟩ := map_eq_some_iff.mp hlast
  have := (lt_of_readVector hb).2
  omega

/-- No position is left for the pattern. -/
theorem IsFirst.past (hpattern : pattern ≠ []) {index : ℤ}
    (h : ¬index ≤ subject.length - pattern.length) :
    IsFirst (Occurs pattern subject) index (-1) :=
  .none fun _ hk hocc => h (hk.trans (hocc.le hpattern))

/-! ## The first character -/

/-- A character with code `n` before `maxN`. -/
def CharAt (subject : List (Character s)) (maxN : ℤ) (n : ℕ) (i : ℤ) : Prop :=
  i < maxN ∧ (readVector subject i).map BitVec.toNat = some n

variable {maxN : ℤ}

theorem findZero_spec (hmax : maxN ≤ subject.length) {fuel : ℕ} {i : ℤ} (hi : 0 ≤ i)
    (him : i ≤ maxN) (hfuel : maxN - i < fuel) :
    ∃ r, findZero subject maxN fuel i = some r ∧ IsFirst (CharAt subject maxN 0) i r := by
  induction fuel generalizing i with
  | zero => omega
  | succ fuel ih =>
    unfold findZero
    split
    · next hlt =>
      obtain ⟨c, hc⟩ := exists_readVector hi (hlt.trans_le hmax)
      simp only [hc, Option.bind_eq_bind, Option.bind_some]
      split
      · next hzero =>
        refine ⟨i, rfl, .here ⟨hlt, ?_⟩⟩
        rw [hc, hzero]
        rfl
      · next hne =>
        obtain ⟨r, hr, hfirst⟩ := ih (i := i + 1) (by omega) (by omega) (by omega)
        refine ⟨r, hr, hfirst.skip (by omega) fun k hk hki hchar => hne ?_⟩
        obtain rfl : k = i := by omega
        rw [CharAt, hc, map_some, some_inj] at hchar
        exact BitVec.eq_of_toNat_eq hchar.2
    · next hge => exact ⟨-1, rfl, .none fun k hk hchar => hge (hk.trans_lt hchar.1)⟩

theorem length_bytes (c : Character w) : (bytes c).length = w.size := by
  cases w <;> rfl

variable (l : List (Character w))

theorem flatMap_bytes_length : (l.flatMap bytes).length = l.length * w.size := by
  induction l with
  | nil => rw [flatMap_nil, length_nil, length_nil, Nat.zero_mul]
  | cons c l ih =>
    rw [flatMap_cons, length_append, length_cons, ih, length_bytes, succ_mul, Nat.add_comm]

theorem flatMap_bytes_drop (k : ℕ) :
    (l.flatMap bytes).drop (k * w.size) = (l.drop k).flatMap bytes := by
  induction k generalizing l with
  | zero => rw [Nat.zero_mul, drop_zero, drop_zero]
  | succ k ih =>
    cases l with
    | nil => rw [flatMap_nil, drop_nil, drop_nil, flatMap_nil]
    | cons c l =>
      rw [flatMap_cons, drop_succ_cons, ← ih, succ_mul, Nat.add_comm, ← drop_drop,
        ← length_bytes c, drop_left]

theorem flatMap_bytes_take (k : ℕ) :
    (l.flatMap bytes).take (k * w.size) = (l.take k).flatMap bytes := by
  induction k generalizing l with
  | zero => rw [Nat.zero_mul, take_zero, take_zero, flatMap_nil]
  | succ k ih =>
    cases l with
    | nil => rw [flatMap_nil, take_nil, take_nil, flatMap_nil]
    | cons c l =>
      rw [flatMap_cons, take_succ_cons, flatMap_cons, ← ih, succ_mul,
        Nat.add_comm, ← length_bytes c, take_length_add_append]

theorem size_pos (w : CharWidth) : 0 < w.size := by
  cases w <;> decide

/-- The character that has the first byte searched for: none before it has one. -/
theorem idxOf?_flatMap_bytes {l : List (Character w)} {byte : BitVec 8} {x : ℕ}
    (h : (l.flatMap bytes).idxOf? byte = some x) :
    x / w.size < l.length ∧ ∀ k c, k < x / w.size → l[k]? = some c → byte ∉ bytes c := by
  induction l generalizing x with
  | nil => exact nomatch h
  | cons c l ih =>
    rw [flatMap_cons, List.idxOf?, findIdx?_append] at h
    cases hc : (bytes c).findIdx? (· == byte) with
    | some y =>
      rw [hc, some_or] at h
      obtain rfl : y = x := Option.some.inj h
      have hlt := (findIdx?_eq_some_iff_findIdx_eq.mp hc).1
      rw [length_bytes] at hlt
      rw [div_eq_of_lt hlt]
      exact ⟨by simp, fun k _ hk => absurd hk (Nat.not_lt_zero k)⟩
    | none =>
      rw [hc, none_or] at h
      obtain ⟨y, hy, rfl⟩ := map_eq_some_iff.mp h
      rw [length_bytes, add_div_right _ (size_pos w)]
      obtain ⟨hlt, hnone⟩ := ih hy
      refine ⟨by rw [length_cons]; omega, fun k a hk ha => ?_⟩
      cases k with
      | zero => grind
      | succ k => exact hnone k a (by omega) ha

/-- What `memchr` says about the characters from `pos` to `maxN`: none before the
one it points into has the byte. -/
theorem memchr_spec {pos maxN : ℤ} (hpos : 0 ≤ pos) (hle : pos ≤ maxN)
    (hmax : maxN ≤ subject.length) (byte : BitVec 8) :
    ∃ r, memchr (subject.flatMap bytes) (pos * s.size) byte ((maxN - pos) * s.size) = some r ∧
      (r = none → ∀ k c, pos ≤ k → k < maxN → readVector subject k = some c → byte ∉ bytes c) ∧
      ∀ x, r = some x → pos ≤ x / s.size ∧ x / s.size < maxN ∧
        ∀ k c, pos ≤ k → k < x / s.size → readVector subject k = some c → byte ∉ bytes c := by
  obtain ⟨a, rfl⟩ := Int.eq_ofNat_of_zero_le hpos
  obtain ⟨n, rfl⟩ : ∃ n : ℕ, maxN = a + n := ⟨(maxN - a).toNat, by omega⟩
  have hsize := size_pos s
  have hslice : ((subject.flatMap bytes).drop (a * s.size)).take (n * s.size) =
      ((subject.drop a).take n).flatMap bytes := by
    rw [flatMap_bytes_drop, flatMap_bytes_take]
  -- a character between `a` and `a + n`, in the slice
  have hread : ∀ (k : ℤ) (c : Character s), a ≤ k → k < a + n → readVector subject k = some c →
      ((subject.drop a).take n)[(k - a).toNat]? = some c := by
    intro k c hk hkn hc
    obtain ⟨l, rfl⟩ : ∃ l : ℕ, k = a + l := ⟨(k - a).toNat, by omega⟩
    rw [getElem?_take, if_pos (by omega), getElem?_drop]
    rwa [show a + ((a : ℤ) + l - a).toNat = a + l by omega]
  have hcheck : (0 : ℤ) ≤ a * s.size ∧ (0 : ℤ) ≤ (a + n - a) * s.size ∧
      (a : ℤ) * s.size + (a + n - a) * s.size ≤ (subject.flatMap bytes).length := by
    rw [flatMap_bytes_length, add_sub_cancel_left, ← add_mul]
    exact ⟨by positivity, by positivity, by exact_mod_cast Nat.mul_le_mul_right _ (by omega)⟩
  refine ⟨_, if_pos hcheck, fun hnone k c hk hkn hc => ?_, fun x hx => ?_⟩
  · rw [map_eq_none_iff, add_sub_cancel_left, ← cast_mul, ← cast_mul,
      Int.toNat_natCast, Int.toNat_natCast, hslice, idxOf?_eq_none_iff] at hnone
    exact fun hmem => hnone (mem_flatMap.mpr ⟨c, mem_of_getElem? (hread k c hk hkn hc), hmem⟩)
  · rw [map_eq_some_iff, add_sub_cancel_left, ← cast_mul, ← cast_mul,
      Int.toNat_natCast, Int.toNat_natCast, hslice] at hx
    obtain ⟨y, hy, rfl⟩ := hx
    obtain ⟨hlt, hnone⟩ := idxOf?_flatMap_bytes hy
    have hdiv : ((a * s.size : ℕ) + y : ℤ) / s.size = a + ((y / s.size : ℕ) : ℤ) := by
      rw [← cast_add, ← Int.natCast_div, Nat.mul_comm, mul_add_div hsize, cast_add]
    rw [length_take, length_drop] at hlt
    rw [hdiv]
    generalize y / s.size = z at hlt hnone ⊢
    refine ⟨by omega, by omega, fun k c hk hkx hc => ?_⟩
    exact hnone (k - a).toNat c (by omega) (hread k c hk (by omega) hc)

theorem findByte_spec (hmax : maxN ≤ subject.length) {searchByte : BitVec 8}
    {searchChar : Character s} (hbyte : searchByte ∈ bytes searchChar) {fuel : ℕ} {pos : ℤ}
    (hpos : 0 ≤ pos) (hle : pos ≤ maxN) (hfuel : maxN - pos < fuel) :
    ∃ r, findByte subject maxN searchByte searchChar fuel pos = some r ∧
      IsFirst (CharAt subject maxN searchChar.toNat) pos r := by
  induction fuel generalizing pos with
  | zero => omega
  | succ fuel ih =>
    unfold findByte
    obtain ⟨r, hr, hnone, hsome⟩ := memchr_spec hpos hle hmax searchByte
    -- a position that does not have the byte does not have the character
    have hchar : ∀ k, CharAt subject maxN searchChar.toNat k →
        readVector subject k = some searchChar := by
      intro k hk
      obtain ⟨c, hc, heq⟩ := map_eq_some_iff.mp hk.2
      rw [hc, BitVec.eq_of_toNat_eq heq]
    simp only [hr, bind_eq_bind, bind_some]
    cases r with
    | none =>
      exact ⟨-1, rfl, .none fun k hk hat =>
        hnone rfl k searchChar hk hat.1 (hchar k hat) hbyte⟩
    | some x =>
      obtain ⟨hle', hlt, hbefore⟩ := hsome x rfl
      obtain ⟨c, hc⟩ := exists_readVector (v := subject) (i := x / s.size) (by omega) (by omega)
      have hskip : ∀ k, pos ≤ k → k < x / s.size → ¬CharAt subject maxN searchChar.toNat k :=
        fun k hk hkx hat => hbefore k searchChar hk hkx (hchar k hat) hbyte
      simp only [hc, bind_some]
      split
      · next heq =>
        subst heq
        refine ⟨_, rfl, IsFirst.skip (.here ⟨hlt, ?_⟩) hle' hskip⟩
        rw [hc, map_some]
      · next hne =>
        have hskip' : ∀ k, pos ≤ k → k < x / s.size + 1 →
            ¬CharAt subject maxN searchChar.toNat k := by
          intro k hk hkx hat
          rcases eq_or_lt_of_le (show k ≤ x / s.size by omega) with rfl | hlt'
          · exact hne (Option.some.inj (hc.symm.trans (hchar _ hat)))
          · exact hskip k hk hlt' hat
        split
        · next hlt' =>
          obtain ⟨r, hr, hfirst⟩ := ih (by omega) hlt'.le (by omega)
          exact ⟨r, hr, hfirst.skip (by omega) hskip'⟩
        · exact ⟨-1, rfl, .none fun k hk hat => hskip' k hk (by have := hat.1; omega) hat⟩

/-! ## Characters of another width -/

/-- All characters of the pattern are characters of the subject's width. -/
def Fits (s : CharWidth) (pattern : List (Character p)) : Prop :=
  ∀ a ∈ pattern, (a.setWidth (8 * s.size)).toNat = a.toNat

theorem toNat_setWidth_eq_iff :
    (a.setWidth (8 * s.size)).toNat = a.toNat ↔ ¬(p.size > s.size ∧ exceedsOneByte a = true) := by
  have hlt := a.isLt
  rw [BitVec.toNat_setWidth, mod_eq_iff_lt (by positivity)]
  cases p <;> cases s
  · exact iff_of_true hlt fun h => absurd h.1 (by decide)
  · exact iff_of_true (hlt.trans (by decide)) fun h => absurd h.1 (by decide)
  · show a.toNat < 256 ↔ ¬(2 > 1 ∧ decide (a.toNat > 0xFF) = true)
    rw [decide_eq_true_iff]
    omega
  · exact iff_of_true hlt fun h => absurd h.1 (by decide)

variable {c : Character w}

theorem toNat_lt_of_size (h : w.size = 1) : c.toNat < 256 :=
  c.isLt.trans_eq (by rw [h])

theorem exceedsOneByte_iff : exceedsOneByte c = true ↔ 0xFF < c.toNat := by
  cases w
  · exact iff_of_false Bool.false_ne_true (not_lt.mpr (le_of_lt_succ c.isLt))
  · exact decide_eq_true_iff

theorem fits_iff : Fits s pattern ↔ ¬(p.size > s.size ∧ isOneByteString pattern = false) := by
  unfold Fits
  simp only [toNat_setWidth_eq_iff]
  by_cases hwide : p.size > s.size
  · cases p <;> cases s <;> try exact absurd hwide (by decide)
    show (∀ a ∈ pattern, ¬(2 > 1 ∧ decide (a.toNat > 0xFF) = true)) ↔
      ¬(2 > 1 ∧ (pattern.all fun c => decide (c.toNat ≤ 0xFF)) = false)
    simp
  · exact iff_of_true (fun _ _ h => hwide h.1) fun h => hwide h.1

theorem setWidth_and_mask (a : BitVec 16) : (a &&& 0xFF).setWidth 8 = a.setWidth 8 := by
  apply BitVec.eq_of_toNat_eq
  rw [BitVec.toNat_setWidth, BitVec.toNat_setWidth, BitVec.toNat_and]
  show (a.toNat &&& (2 ^ 8 - 1)) % 2 ^ 8 = _
  rw [and_two_pow_sub_one_eq_mod, mod_mod]

/-- The byte searched for is a byte of the character. -/
theorem getHighestValueByte_mem (h : (a.setWidth (8 * s.size)).toNat = a.toNat) :
    getHighestValueByte a ∈ bytes (a.setWidth (8 * s.size)) := by
  -- the higher byte is one of the two
  have hmax : ∀ a b : BitVec 16, b = a → (if (a &&& 0xFF).setWidth 8 < (a >>> 8).setWidth 8
      then (a >>> 8).setWidth 8 else (a &&& 0xFF).setWidth 8) ∈
        [b.setWidth 8, (b >>> 8).setWidth 8] := by
    rintro a _ rfl
    rw [setWidth_and_mask]
    split <;> simp
  match p, s, a, h with
  | .oneByte, .oneByte, (a : BitVec 8), _ =>
    exact mem_singleton.mpr (BitVec.setWidth_eq a).symm
  | .oneByte, .twoByte, (a : BitVec 8), _ =>
    have hback : (a.setWidth 16).setWidth 8 = a := by simp
    exact mem_cons.mpr (.inl hback.symm)
  | .twoByte, .oneByte, (a : BitVec 16), h =>
    have hlt : a.toNat < 2 ^ 8 := h ▸ (a.setWidth 8).isLt
    have hhigh : (a >>> 8).setWidth 8 = BitVec.ofNat 8 0 := by
      apply BitVec.eq_of_toNat_eq
      rw [BitVec.toNat_setWidth, BitVec.toNat_ushiftRight, shiftRight_eq_div_pow, div_eq_of_lt hlt]
      rfl
    have hne : ¬(a &&& 0xFF).setWidth 8 < (a >>> 8).setWidth 8 := by grind
    refine mem_singleton.mpr ((if_neg hne).trans ?_)
    exact setWidth_and_mask a
  | .twoByte, .twoByte, (a : BitVec 16), _ => exact hmax a _ (BitVec.setWidth_eq a)

theorem findFirstCharacter_spec (subject : List (Character s)) (fuel : ℕ)
    (hfits : Fits s pattern) (ha : readVector pattern 0 = some a) {index : ℤ}
    (hindex : 0 ≤ index) (hle : index ≤ subject.length - pattern.length + 1)
    (hfuel : subject.length - pattern.length + 1 - index < fuel) :
    ∃ r, findFirstCharacter fuel pattern subject index = some r ∧
      IsFirst (CharAt subject (subject.length - pattern.length + 1) a.toNat) index r := by
  have hlen := (lt_of_readVector ha).2
  have hwidth : (a.setWidth (8 * s.size)).toNat = a.toNat := hfits a (mem_of_readVector ha)
  unfold findFirstCharacter
  simp only [ha, Option.bind_eq_bind, Option.bind_some]
  split
  · next hzero =>
    rw [hzero.2]
    exact findZero_spec (by omega) hindex hle hfuel
  · rw [← hwidth]
    exact findByte_spec (by omega) (getHighestValueByte_mem hwidth) hindex hle hfuel

/-! ## Linear search -/

section Linear

variable {i j : ℤ}

/-- Both characters at a position of the pattern can be read. -/
theorem exists_read (hi : 0 ≤ i) (him : i ≤ subject.length - pattern.length) (hj : 0 ≤ j)
    (hjm : j < pattern.length) :
    ∃ a b, readVector pattern j = some a ∧ readVector subject (i + j) = some b ∧
      (Agrees pattern subject i j ↔ a.toNat = b.toNat) := by
  obtain ⟨a, ha⟩ := exists_readVector hj hjm
  obtain ⟨b, hb⟩ := exists_readVector (v := subject) (i := i + j) (by omega) (by omega)
  exact ⟨a, b, ha, hb, agrees_iff ha hb⟩

theorem charCompare_spec (fuel : ℕ) (hi : 0 ≤ i) (him : i ≤ subject.length - pattern.length)
    (hj : 0 ≤ j) (hjm : j < pattern.length - 1) (hfuel : pattern.length - 1 - j ≤ fuel) :
    ∃ r, charCompare pattern subject 1 (i + 1) (pattern.length - 1) fuel j = some r ∧
      (r = true ↔ ∀ q, j < q → q < pattern.length → Agrees pattern subject i q) := by
  induction fuel generalizing j with
  | zero => omega
  | succ fuel ih =>
    obtain ⟨a, b, ha, hb, hagrees⟩ := exists_read hi him (show 0 ≤ 1 + j by omega) (by omega)
    unfold charCompare
    rw [← add_assoc] at hb
    simp only [ha, hb, Option.bind_eq_bind, Option.bind_some]
    split
    · grind
    · next heq =>
      have hhere := hagrees.mpr (not_not.mp heq)
      split
      · next hlt =>
        obtain ⟨r, hr, hiff⟩ := ih (by omega) hlt (by omega)
        refine ⟨r, hr, hiff.trans ⟨fun h q hq hqm => ?_, fun h q hq => h q (by omega)⟩⟩
        rcases eq_or_lt_of_le (show 1 + j ≤ q by omega) with rfl | hlt'
        · exact hhere
        · exact h q (by omega) hqm
      · refine ⟨true, rfl, iff_of_true rfl fun q hq hqm => ?_⟩
        obtain rfl : q = 1 + j := by omega
        exact hhere

theorem matchForwards_spec (fuel : ℕ) (hi : 0 ≤ i) (him : i ≤ subject.length - pattern.length)
    (hj : 0 ≤ j) (hjm : j < pattern.length) (hfuel : pattern.length - j ≤ fuel) :
    ∃ r, matchForwards pattern subject i fuel j = some r ∧
      (r = pattern.length ↔ ∀ q, j ≤ q → q < pattern.length → Agrees pattern subject i q) := by
  induction fuel generalizing j with
  | zero => omega
  | succ fuel ih =>
    obtain ⟨a, b, ha, hb, hagrees⟩ := exists_read hi him hj hjm
    unfold matchForwards
    simp only [ha, hb, Option.bind_eq_bind, Option.bind_some]
    split
    · grind
    · next heq =>
      have hhere := hagrees.mpr (not_not.mp heq)
      split
      · next hlt =>
        obtain ⟨r, hr, hiff⟩ := ih (by omega) hlt (by omega)
        refine ⟨r, hr, hiff.trans ⟨fun h q hq hqm => ?_, fun h q hq => h q (by omega)⟩⟩
        rcases eq_or_lt_of_le hq with rfl | hlt'
        · exact hhere
        · exact h q hlt' hqm
      · grind

variable {a : Character p}

/-- An occurrence begins with the first character, and has the others after it. -/
theorem occurs_iff (ha : readVector pattern 0 = some a) : Occurs pattern subject i ↔
      CharAt subject (subject.length - pattern.length + 1) a.toNat i ∧
      ∀ q : ℤ, 0 < q → q < pattern.length → Agrees pattern subject i q := by
  have hlen := (lt_of_readVector ha).2
  have hfirst : Agrees pattern subject i 0 ↔ (readVector subject i).map BitVec.toNat = a.toNat := by
    rw [Agrees, ha, add_zero, map_some]
  constructor
  · intro h
    have hle := h.le (ne_nil_of_length_pos (by omega))
    exact ⟨⟨by omega, hfirst.mp (h 0 le_rfl (by omega))⟩, fun q hq => h q hq.le⟩
  · rintro ⟨⟨-, hchar⟩, hrest⟩ q hq hqm
    rcases eq_or_lt_of_le hq with rfl | hlt
    · exact hfirst.mpr hchar
    · exact hrest q hlt hqm

/-- Where the first character is not, the pattern is not. -/
theorem IsFirst.char_none (ha : readVector pattern 0 = some a) {index : ℤ} (hindex : 0 ≤ index)
    (h : IsFirst (CharAt subject (subject.length - pattern.length + 1) a.toNat) index (-1)) :
    IsFirst (Occurs pattern subject) index (-1) := by
  rcases h with ⟨hle, -⟩ | ⟨-, hnone⟩
  · omega
  · exact .none fun k hk hocc => hnone k hk ((occurs_iff ha).mp hocc).1

/-- **One step of a linear search**: from `index` to the next position with the first
character of the pattern, and past it if the others are not there. -/
theorem IsFirst.char_step (ha : readVector pattern 0 = some a) {index r : ℤ}
    (hfirst : IsFirst (CharAt subject (subject.length - pattern.length + 1) a.toNat) index i)
    (hi : i ≠ -1) :
    (index ≤ i ∧ i ≤ subject.length - pattern.length) ∧
    ((∀ q : ℤ, 0 < q → q < pattern.length → Agrees pattern subject i q) →
      IsFirst (Occurs pattern subject) index i) ∧
    (¬(∀ q : ℤ, 0 < q → q < pattern.length → Agrees pattern subject i q) →
      IsFirst (Occurs pattern subject) (i + 1) r → IsFirst (Occurs pattern subject) index r) := by
  obtain ⟨hle, hchar, hbefore⟩ := hfirst.resolve_right fun h => hi h.1
  have hskip : ∀ k, index ≤ k → k < i → ¬Occurs pattern subject k :=
    fun k hk hki hocc => hbefore k hk hki ((occurs_iff ha).mp hocc).1
  refine ⟨⟨hle, by have := hchar.1; omega⟩, fun hrest => ?_, fun hrest hnext => ?_⟩
  · exact IsFirst.skip (.here ((occurs_iff ha).mpr ⟨hchar, hrest⟩)) hle hskip
  · refine hnext.skip (by omega) fun k hk hki hocc => ?_
    rcases eq_or_lt_of_le (show k ≤ i by omega) with rfl | hlt
    · exact hrest ((occurs_iff ha).mp hocc).2
    · exact hskip k hk hlt hocc

end Linear

section LinearSearch

variable {search : StringSearch p s} {fuel : ℕ} {index : ℤ}

theorem singleCharSearch_spec (hfits : Fits s search.pattern) (hlen : search.pattern.length = 1)
    (hindex : 0 ≤ index) (hle : index ≤ subject.length) (hfuel : subject.length + 1 ≤ fuel) :
    ∃ r, search.singleCharSearch fuel subject index = some r ∧
      IsFirst (Occurs search.pattern subject) index r := by
  obtain ⟨a, ha⟩ := exists_readVector (v := search.pattern) le_rfl (by omega)
  obtain ⟨r, hr, hfirst⟩ := findFirstCharacter_spec subject fuel hfits ha hindex (by omega)
    (by omega)
  unfold singleCharSearch
  simp only [ha, Option.bind_eq_bind, Option.bind_some,
    if_neg (toNat_setWidth_eq_iff.mp (hfits a (mem_of_readVector ha))), hr]
  refine ⟨r, rfl, ?_⟩
  by_cases hnone : r = -1
  · subst hnone
    exact hfirst.char_none ha hindex
  · exact (IsFirst.char_step (r := r) ha hfirst hnone).2.1 fun q hq hqm => by omega

theorem linearSearchLoop_spec (hfits : Fits s pattern) (hlen : 1 < pattern.length)
    (hindex : 0 ≤ index) (hle : index ≤ subject.length)
    (hfuel : subject.length + pattern.length + 1 ≤ fuel) {steps : ℕ}
    (hsteps : subject.length + 1 - index ≤ steps) :
    ∃ r, linearSearchLoop fuel pattern subject (subject.length - pattern.length) steps index =
        some r ∧ IsFirst (Occurs pattern subject) index r := by
  induction steps generalizing index with
  | zero => omega
  | succ steps ih =>
    unfold linearSearchLoop
    split
    · next hle' =>
      obtain ⟨a, ha⟩ := exists_readVector (v := pattern) le_rfl (by omega)
      obtain ⟨i, hi, hfirst⟩ := findFirstCharacter_spec subject fuel hfits ha hindex (by omega)
        (by omega)
      simp only [hi, bind_eq_bind, bind_some]
      split
      · next hnone =>
        subst hnone
        exact ⟨-1, rfl, hfirst.char_none ha hindex⟩
      · next hsome =>
        obtain ⟨⟨hlow, hhigh⟩, hfound, -⟩ := IsFirst.char_step (r := i) ha hfirst hsome
        obtain ⟨b, hb, hiff⟩ := charCompare_spec fuel (by omega) hhigh le_rfl (by omega) (by omega)
        rw [hb, bind_some]
        split
        · next htrue => exact ⟨i, rfl, hfound (hiff.mp htrue)⟩
        · next hfalse =>
          obtain ⟨r, hr, hnext⟩ := ih (show 0 ≤ i + 1 by omega) (by omega) (by omega)
          exact ⟨r, hr, (IsFirst.char_step ha hfirst hsome).2.2
            (fun h => hfalse (hiff.mpr h)) hnext⟩
    · next hgt => exact ⟨-1, rfl, .past (ne_nil_of_length_pos (by omega)) hgt⟩

end LinearSearch

/-! ## Shifts -/

section Shifts

variable {search : StringSearch p s} {index j t v : ℤ}

/-- The entry of a character: it is not in the pattern after it, the last position
apart. -/
theorem charOccurrence_spec (hbad : search.BadChars) (hlen : 1 ≤ search.patternLength)
    (c : Character s) :
    ∃ v, search.charOccurrence c = some v ∧ -1 ≤ v ∧ v ≤ search.patternLength - 2 ∧
      ∀ q a, v < q → q < search.patternLength - 1 → readVector search.pattern q = some a →
        a.toNat ≠ c.toNat := by
  -- an entry that is read at the bucket characters like `c` have
  have hentry : ∀ b : ℕ, b < kUC16AlphabetSize →
      (∀ a : Character p, a.toNat = c.toNat → bucket a = b) →
      ∃ v, search.isolate.badCharShiftTable.read b = some v ∧ -1 ≤ v ∧
        v ≤ search.patternLength - 2 ∧
        ∀ q a, v < q → q < search.patternLength - 1 → readVector search.pattern q = some a →
          a.toNat ≠ c.toNat := by
    intro b hb hbucket
    obtain ⟨v, hv, hlow, hhigh, hnone⟩ := hbad b hb
    exact ⟨v, hv, hlow, hhigh, fun q a hq hqm ha heq => hnone q a hq hqm ha (hbucket a heq)⟩
  have hsize : alphabetSize p = kUC16AlphabetSize := by cases p <;> rfl
  unfold charOccurrence
  by_cases hs : s.size = 1
  · have hc : c.toNat < kUC16AlphabetSize := toNat_lt_of_size hs
    simp only [if_pos hs]
    refine hentry c.toNat hc fun a heq => ?_
    rw [bucket, heq, hsize, mod_eq_of_lt hc, ite_self]
  by_cases hp : p.size = 1
  · simp only [if_neg hs, if_pos hp]
    split
    · next hexceeds =>
      refine ⟨-1, rfl, le_rfl, by omega, fun q a _ _ _ heq => ?_⟩
      have ha : a.toNat < 256 := toNat_lt_of_size hp
      have hc := exceedsOneByte_iff.mp hexceeds
      omega
    · next hwithin =>
      refine hentry c.toNat ?_ fun a heq => ?_
      · exact lt_succ_of_le (not_lt.mp fun h => hwithin (exceedsOneByte_iff.mpr h))
      · rw [bucket, if_pos hp, heq]
  · simp only [if_neg hs, if_neg hp]
    refine hentry _ (mod_lt _ (by decide)) fun a heq => ?_
    rw [bucket, if_neg hp, heq, hsize]

/-- The shift for a character of the subject passes over no occurrence: the
pattern does not have the character where it would have to. -/
theorem not_occurs_badChar {c : Character s}
    (hnone : ∀ q a, v < q → q < search.patternLength - 1 → readVector search.pattern q = some a →
      a.toNat ≠ c.toNat) (hv : -1 ≤ v)
    (hc : (readVector subject (index + j)).map BitVec.toNat = some c.toNat)
    (hj : j < search.patternLength) (ht : 0 < t) (hlt : t < j - v) :
    ¬Occurs search.pattern subject (index + t) := by
  intro hocc
  have hagrees := hocc (j - t) (by omega) (show j - t < search.patternLength by omega)
  rw [Agrees, show index + t + (j - t) = index + j by omega, hc] at hagrees
  obtain ⟨a, ha, heq⟩ := map_eq_some_iff.mp hagrees.symm
  exact hnone (j - t) a (by omega) (by omega) ha heq

/-- A safe shift passes over no occurrence: an occurrence it passes over would
make a shift of the pattern against itself. -/
theorem not_occurs_goodSuffix
    (hsafe : Borders.SafeShift search.word search.start search.patternLength (j + 1) v)
    (hmatch : ∀ q, j < q → q < search.patternLength → Agrees search.pattern subject index q)
    (hdiff : ¬Agrees search.pattern subject index j) (hstart : 0 ≤ search.start)
    (hj : j < search.patternLength) (ht : 0 < t) (hlt : t < v) :
    ¬Occurs search.pattern subject (index + t) := by
  intro hocc
  -- the pattern moved by `t`, against the subject at `index`
  have hmoved : ∀ q, t ≤ q → q < search.patternLength →
      (readVector subject (index + q)).map BitVec.toNat =
        (search.word (q - t)).map BitVec.toNat := by
    intro q hq hqm
    have hagrees := hocc (q - t) (by omega) (show q - t < search.patternLength by omega)
    rwa [Agrees, show index + t + (q - t) = index + q by omega] at hagrees
  have hinj : ∀ {a b : Option (Character p)}, a.map BitVec.toNat = b.map BitVec.toNat → a = b :=
    fun h => map_injective (fun _ _ => BitVec.eq_of_toNat_eq) h
  refine absurd (hsafe.2 t ⟨ht, fun q hq hqm hlo => ?_, fun hfull heq => hdiff ?_⟩) (not_le.mpr hlt)
  · exact hinj ((hmoved q (by omega) hqm).symm.trans (hmatch q (by omega) hqm))
  · rw [add_sub_cancel_right] at heq
    rw [Agrees, hmoved j (by omega) hj, heq]

theorem badCharShift_spec (hbad : search.BadChars) (hlen : 1 ≤ search.patternLength) (j : ℤ)
    (c : Character s) :
    ∃ v, search.badCharShift j c = some v ∧ (j = search.patternLength - 1 → 1 ≤ v) ∧
      ∀ (subject : List (Character s)) (index t : ℤ),
        (readVector subject (index + j)).map BitVec.toNat = some c.toNat →
        j < search.patternLength → 0 < t → t < v → ¬Occurs search.pattern subject (index + t) := by
  obtain ⟨v, hv, hlow, hhigh, hnone⟩ := charOccurrence_spec hbad hlen c
  refine ⟨j - v, by rw [badCharShift, hv]; rfl, by omega, fun subject index t hc hj ht hlt => ?_⟩
  exact not_occurs_badChar hnone hlow hc hj ht hlt

/-- The shift where the last character agrees. -/
theorem lastCharShift_spec (hbad : search.BadChars) (hlen : 1 ≤ search.patternLength)
    (hfits : Fits s search.pattern) :
    ∃ v, search.lastCharShift = some v ∧ 1 ≤ v ∧ ∀ (subject : List (Character s)) (index t : ℤ),
        Agrees search.pattern subject index (search.patternLength - 1) → 0 < t → t < v →
        ¬Occurs search.pattern subject (index + t) := by
  obtain ⟨a, ha⟩ := exists_readVector (v := search.pattern) (i := search.patternLength - 1)
    (by omega) (by unfold patternLength; omega)
  obtain ⟨v, hv, hpos, hnone⟩ := badCharShift_spec hbad hlen (search.patternLength - 1)
    (a.setWidth (8 * s.size))
  refine ⟨v, ?_, hpos rfl, fun subject index t hagrees => hnone subject index t ?_ (by omega)⟩
  · rw [lastCharShift, lastChar, ha]
    exact hv
  · rw [hagrees, ha, map_some, hfits a (mem_of_readVector ha)]

/-- The shift after a difference at `j`. -/
theorem boyerMooreShift_spec (ht : search.Tabulated) (hbad : search.BadChars)
    (hgood : search.GoodSuffixes) (hfits : Fits s search.pattern) (hj : 0 ≤ j)
    (hjm : j < search.patternLength) (c : Character s) :
    ∃ v, search.boyerMooreShift j c = some v ∧ 1 ≤ v ∧
      ∀ (subject : List (Character s)) (index t : ℤ), readVector subject (index + j) = some c →
        Agrees search.pattern subject index (search.patternLength - 1) →
        (∀ q, j < q → q < search.patternLength → Agrees search.pattern subject index q) →
        ¬Agrees search.pattern subject index j → 0 < t → t < v →
        ¬Occurs search.pattern subject (index + t) := by
  have hstart := ht.start_nonneg
  have hlen : 1 ≤ search.patternLength := by omega
  unfold boyerMooreShift
  split
  · obtain ⟨v, hv, hpos, hnone⟩ := lastCharShift_spec hbad hlen hfits
    exact ⟨v, hv, hpos, fun subject index t _ hlast _ _ => hnone subject index t hlast⟩
  · obtain ⟨gs, hgs, hsafe⟩ := hgood (j + 1) (by omega) (by omega)
    obtain ⟨bc, hbc, -, hnone⟩ := badCharShift_spec hbad hlen j c
    simp only [hgs, hbc, Option.bind_eq_bind, Option.bind_some]
    have hpos := hsafe.1
    split
    · exact ⟨gs, rfl, hpos, fun subject index t _ _ hmatch hdiff ht hlt =>
        not_occurs_goodSuffix hsafe hmatch hdiff hstart hjm ht hlt⟩
    · exact ⟨bc, rfl, by omega, fun subject index t hc _ _ _ =>
        hnone subject index t (by rw [hc, map_some]) hjm⟩

end Shifts

/-! ## Boyer–Moore and Boyer–Moore–Horspool search -/

section BoyerMoore

variable {search : StringSearch p s} {index : ℤ}

/-- What the loops rely on: the pattern is in the tables, and its characters are
characters of the subject's width. -/
structure Shiftable (search : StringSearch p s) : Prop where
  tabulated : search.Tabulated
  fits : Fits s search.pattern
  badChars : search.BadChars

variable (h : search.Shiftable)
include h

theorem Shiftable.one_le : 1 ≤ search.patternLength := by
  have := h.tabulated.length_gt
  have := h.tabulated.start_nonneg
  omega

theorem Shiftable.ne_nil : search.pattern ≠ [] := by
  have := h.one_le
  exact ne_nil_of_length_pos (by unfold patternLength at this; omega)

/-- The last character of the pattern. -/
theorem Shiftable.exists_lastChar : ∃ a, search.lastChar = some a := by
  have := h.one_le
  exact exists_readVector (by omega) (by unfold patternLength; omega)

/-- Skipping to a position where the last character agrees. -/
theorem boyerMooreSkip_spec (fuel : ℕ) (hindex : 0 ≤ index)
    (hle : index ≤ subject.length - search.patternLength)
    (hfuel : subject.length - search.patternLength - index < fuel) :
    ∃ r, search.boyerMooreSkip subject fuel index = some r ∧
      (r = none → IsFirst (Occurs search.pattern subject) index (-1)) ∧
      ∀ next, r = some next → index ≤ next ∧ next ≤ subject.length - search.patternLength ∧
        Agrees search.pattern subject next (search.patternLength - 1) ∧
        ∀ k, index ≤ k → k < next → ¬Occurs search.pattern subject k := by
  have hlen := h.one_le
  induction fuel generalizing index with
  | zero => omega
  | succ fuel ih =>
    obtain ⟨a, ha⟩ := h.exists_lastChar
    obtain ⟨c, hc⟩ := exists_readVector (v := subject) (i := index + (search.patternLength - 1))
      (by omega) (by omega)
    have hagrees := agrees_iff ha hc
    unfold boyerMooreSkip
    simp only [hc, ha, bind_eq_bind, bind_some]
    split
    · next hne =>
      obtain ⟨v, hv, hpos, hnone⟩ := badCharShift_spec h.badChars hlen (search.patternLength - 1) c
      have hskip : ∀ k, index ≤ k → k < index + v → ¬Occurs search.pattern subject k := by
        intro k hk hkv hocc
        rcases eq_or_lt_of_le hk with rfl | hlt
        · exact hne (hagrees.mp (hocc _ (by omega) (by unfold patternLength; omega)))
        · refine hnone subject index (k - index) (by rw [hc, map_some]) (by omega)
            (by omega) (by omega) ?_
          rwa [add_sub_cancel]
      simp only [hv, bind_some]
      split
      · next hgt =>
        refine ⟨none, rfl, fun _ => ?_, fun _ hsome => nomatch hsome⟩
        exact (IsFirst.past h.ne_nil (not_le.mpr hgt)).skip (by omega) hskip
      · obtain ⟨r, hr, hnil, hsome⟩ := ih (show 0 ≤ index + v by omega) (by omega) (by omega)
        refine ⟨r, hr, fun hr => (hnil hr).skip (by omega) hskip, fun next hnext => ?_⟩
        obtain ⟨hlow, hhigh, hlast, hbefore⟩ := hsome next hnext
        refine ⟨by omega, hhigh, hlast, fun k hk hkn => ?_⟩
        rcases lt_or_ge k (index + v) with hlt | hge
        · exact hskip k hk hlt
        · exact hbefore k hge hkn
    · next heq =>
      refine ⟨some index, rfl, (fun hnone => nomatch hnone), ?_⟩
      rintro _ ⟨⟩
      exact ⟨le_rfl, hle, hagrees.mpr (not_not.mp heq), fun k hk hlt => absurd hk (not_le.mpr hlt)⟩

omit h in
/-- With the badness, the same positions. -/
theorem boyerMooreHorspoolSkip_fst (search : StringSearch p s) (subject : List (Character s))
    (fuel : ℕ) (index badness : ℤ) :
    (search.boyerMooreHorspoolSkip subject fuel index badness).map (Option.map Prod.fst) =
      search.boyerMooreSkip subject fuel index := by
  induction fuel generalizing index badness with
  | zero => rfl
  | succ fuel ih =>
    unfold boyerMooreHorspoolSkip boyerMooreSkip
    dsimp only
    cases readVector subject (index + (search.patternLength - 1)) with
    | none => rfl
    | some c =>
      cases search.lastChar with
      | none => rfl
      | some a =>
        simp only [Option.bind_eq_bind, Option.bind_some]
        split
        · cases search.badCharShift (search.patternLength - 1) c with
          | none => rfl
          | some v => grind
        · rfl

omit h in
theorem matchBackwards_spec (fuel : ℕ) {i j : ℤ} (hi : 0 ≤ i)
    (him : i ≤ subject.length - pattern.length) (hj : -1 ≤ j) (hjm : j < pattern.length)
    (hfuel : j + 1 < fuel) :
    ∃ r, matchBackwards pattern subject i fuel j = some r ∧ -1 ≤ r ∧ r ≤ j ∧
      (∀ q, r < q → q ≤ j → Agrees pattern subject i q) ∧
      (0 ≤ r → ¬Agrees pattern subject i r) := by
  induction fuel generalizing j with
  | zero => omega
  | succ fuel ih =>
    unfold matchBackwards
    split
    · next hj0 =>
      obtain ⟨a, b, ha, hb, hagrees⟩ := exists_read hi him hj0 hjm
      simp only [ha, hb, Option.bind_eq_bind, Option.bind_some]
      split
      · next heq =>
        obtain ⟨r, hr, hlow, hhigh, hmatch, hdiff⟩ := ih (j := j - 1) (by omega) (by omega)
          (by omega)
        refine ⟨r, hr, hlow, by omega, fun q hq hqj => ?_, hdiff⟩
        rcases eq_or_lt_of_le hqj with rfl | hlt
        · exact hagrees.mpr heq
        · exact hmatch q hq (by omega)
      · grind
    · next hneg =>
      exact ⟨j, rfl, hj, le_rfl, fun q hq hqj => absurd hq (not_lt.mpr hqj), fun h => absurd h hneg⟩

theorem boyerMooreLoop_spec (hgood : search.GoodSuffixes) {fuel : ℕ}
    (hfuel : subject.length + search.patternLength + 1 < fuel) {steps : ℕ} (hindex : 0 ≤ index)
    (hsteps : subject.length - index < steps) (hpos : 0 < steps) :
    ∃ r, boyerMooreLoop fuel search subject steps index = some r ∧
      IsFirst (Occurs search.pattern subject) index r := by
  have hlen := h.one_le
  induction steps generalizing index with
  | zero => omega
  | succ steps ih =>
    unfold boyerMooreLoop
    split
    · next hle =>
      obtain ⟨next?, hskip, hnone, hsome⟩ := boyerMooreSkip_spec h fuel hindex hle (by omega)
      simp only [hskip, bind_eq_bind, bind_some]
      cases next? with
      | none => exact ⟨-1, rfl, hnone rfl⟩
      | some next =>
        obtain ⟨hlow, hhigh, hlast, hbefore⟩ := hsome next rfl
        obtain ⟨j, hj, hjlow, hjhigh, hmatch, hdiff⟩ := matchBackwards_spec fuel
          (by omega) hhigh (show -1 ≤ search.patternLength - 1 by omega)
          (by unfold patternLength; omega) (by omega)
        simp only [hj, bind_some]
        split
        · refine ⟨next, rfl, IsFirst.skip (.here fun q hq hqm => ?_) hlow hbefore⟩
          exact hmatch q (by omega) (by unfold patternLength; omega)
        · next hmiss =>
          obtain ⟨c, hc⟩ := exists_readVector (v := subject) (i := next + j) (by omega) (by omega)
          obtain ⟨v, hv, hv1, hover⟩ := boyerMooreShift_spec h.tabulated h.badChars hgood h.fits
            (not_lt.mp hmiss) (by omega) c
          obtain ⟨r, hr, hfirst⟩ := ih (show 0 ≤ next + v by omega) (by omega) (by omega)
          simp only [hc, hv, bind_some]
          refine ⟨r, hr, hfirst.skip (by omega) fun k hk hkv hocc => ?_⟩
          rcases lt_trichotomy k next with hlt | rfl | hgt
          · exact hbefore k hk hlt hocc
          · exact hdiff (not_lt.mp hmiss) (hocc j (not_lt.mp hmiss)
              (by unfold patternLength at hjhigh; omega))
          · refine hover subject next (k - next) hc hlast
              (fun q hq hqm => hmatch q hq (by omega)) (hdiff (not_lt.mp hmiss)) (by omega)
              (by omega) ?_
            rwa [add_sub_cancel]
    · next hgt => exact ⟨-1, rfl, .past h.ne_nil hgt⟩

end BoyerMoore

/-! ## Search objects -/

/-- What a strategy relies on. -/
def Strategy.Requires (search : StringSearch p s) : Strategy → Prop
  | .failSearch => ¬Fits s search.pattern
  | .singleCharSearch => Fits s search.pattern ∧ search.pattern.length = 1
  | .linearSearch => Fits s search.pattern ∧ 1 < search.pattern.length
  | .initialSearch => Fits s search.pattern ∧ search.Tabulated
  | .boyerMooreHorspoolSearch => search.Shiftable
  | .boyerMooreSearch => search.Shiftable ∧ search.GoodSuffixes

/-- A search object has what its strategy relies on. -/
structure Valid (search : StringSearch p s) : Prop where
  ne_nil : search.pattern ≠ []
  requires : search.strategy.Requires search

/-- The outcome of a search: the first occurrence, and a search object for the
same pattern to go on with. -/
def Finds (search : StringSearch p s) (subject : List (Character s)) (index : ℤ)
    (outcome : Option (ℤ × StringSearch p s)) : Prop :=
  ∃ r search', outcome = some (r, search') ∧ IsFirst (Occurs search.pattern subject) index r ∧
    search'.Valid ∧ search'.pattern = search.pattern

section Searches

variable {search : StringSearch p s} {index : ℤ} {fuel : ℕ}

/-- A search that leaves the object as it is. -/
theorem Valid.finds (h : search.Valid) {outcome : Option ℤ}
    (hfirst : ∃ r, outcome = some r ∧ IsFirst (Occurs search.pattern subject) index r) :
    search.Finds subject index (do some (← outcome, search)) := by
  obtain ⟨r, rfl, hfirst⟩ := hfirst
  exact ⟨r, search, rfl, hfirst, h, rfl⟩

/-- Moving on to a later position, where the search goes on. -/
theorem Finds.skip {next : ℤ} {outcome : Option (ℤ × StringSearch p s)}
    (h : search.Finds subject next outcome) (hle : index ≤ next)
    (hnone : ∀ k, index ≤ k → k < next → ¬Occurs search.pattern subject k) :
    search.Finds subject index outcome := by
  obtain ⟨r, search', heq, hfirst, hrest⟩ := h
  exact ⟨r, search', heq, hfirst.skip hle hnone, hrest⟩

/-- Building the table of good suffixes keeps what the other tables are for. -/
theorem Shiftable.setSuffixTables (h : search.Shiftable) (tables : SuffixTables) :
    Shiftable ({ search.setSuffixTables tables with strategy := .boyerMooreSearch } :
      StringSearch p s) :=
  ⟨⟨h.tabulated.start_nonneg, h.tabulated.length_gt, h.tabulated.length_le⟩, h.fits, h.badChars⟩

variable {steps : ℕ}

theorem boyerMooreHorspoolLoop_spec (h : search.Shiftable)
    (hstrategy : search.strategy = .boyerMooreHorspoolSearch)
    (hfuel : subject.length + search.patternLength + 1 < fuel) {lastCharShift : ℤ}
    (hshift : search.lastCharShift = some lastCharShift) (hindex : 0 ≤ index)
    (hsteps : subject.length - index < steps) (hpos : 0 < steps) (badness : ℤ) :
    search.Finds subject index
      (boyerMooreHorspoolLoop fuel search subject lastCharShift steps index badness) := by
  have hlen := h.one_le
  have hvalid : search.Valid := ⟨h.ne_nil, by rw [hstrategy]; exact h⟩
  obtain ⟨v, hv, hv1, hover⟩ := lastCharShift_spec h.badChars hlen h.fits
  obtain rfl : lastCharShift = v := Option.some.inj (hshift.symm.trans hv)
  induction steps generalizing index badness with
  | zero => omega
  | succ steps ih =>
    unfold boyerMooreHorspoolLoop
    split
    · next hle =>
      obtain ⟨next?, hskip, hnone, hsome⟩ := boyerMooreSkip_spec h fuel hindex hle (by omega)
      rw [← boyerMooreHorspoolSkip_fst search subject fuel index badness] at hskip
      obtain ⟨state, hstate, rfl⟩ := map_eq_some_iff.mp hskip
      simp only [hstate, bind_eq_bind, bind_some]
      match state with
      | none => exact ⟨-1, search, rfl, hnone rfl, hvalid, rfl⟩
      | some (next, badness) =>
        obtain ⟨hlow, hhigh, hlast, hbefore⟩ := hsome next rfl
        obtain ⟨j, hj, hjlow, hjhigh, hmatch, hdiff⟩ := matchBackwards_spec fuel
          (by omega) hhigh (show -1 ≤ search.patternLength - 2 by omega)
          (by unfold patternLength; omega) (by omega)
        simp only [hj, bind_some]
        split
        · refine ⟨next, search, rfl, IsFirst.skip (.here fun q hq hqm => ?_) hlow hbefore,
            hvalid, rfl⟩
          rcases eq_or_lt_of_le (show q ≤ search.patternLength - 1 by
            unfold patternLength; omega) with rfl | hlt
          · exact hlast
          · exact hmatch q (by omega) (by omega)
        · next hmiss =>
          have hskip : ∀ k, index ≤ k → k < next + lastCharShift →
              ¬Occurs search.pattern subject k := by
            intro k hk hkv hocc
            rcases lt_trichotomy k next with hlt | rfl | hgt
            · exact hbefore k hk hlt hocc
            · exact hdiff (not_lt.mp hmiss) (hocc j (not_lt.mp hmiss)
                (by unfold patternLength at hjhigh; omega))
            · refine hover subject next (k - next) hlast (by omega) (by omega) ?_
              rwa [add_sub_cancel]
          suffices hfinds : search.Finds subject (next + lastCharShift) _ from
            hfinds.skip (by omega) hskip
          split
          · obtain ⟨tables, hbuild, hgood⟩ := populateBoyerMooreTable_spec h.tabulated
              (show search.patternLength + 1 < fuel by omega)
            have h' := h.setSuffixTables tables
            obtain ⟨r, hr, hfirst⟩ := boyerMooreLoop_spec h' hgood hfuel (by omega)
              (show subject.length - (next + lastCharShift) < fuel by omega) (by omega)
            refine ⟨r, _, ?_, hfirst, ⟨h'.ne_nil, h', hgood⟩, rfl⟩
            simp only [hbuild, bind_some]
            rw [boyerMooreSearch, hr]
            rfl
          · exact ih (by omega) (by omega) (by omega) _
    · next hgt => exact ⟨-1, search, rfl, .past h.ne_nil hgt, hvalid, rfl⟩

theorem boyerMooreHorspoolSearch_spec (h : search.Shiftable)
    (hstrategy : search.strategy = .boyerMooreHorspoolSearch)
    (hfuel : subject.length + search.patternLength + 1 < fuel) (hindex : 0 ≤ index) :
    search.Finds subject index (search.boyerMooreHorspoolSearch fuel subject index) := by
  have hlen := h.one_le
  obtain ⟨v, hv, -⟩ := lastCharShift_spec h.badChars hlen h.fits
  rw [boyerMooreHorspoolSearch, hv]
  exact boyerMooreHorspoolLoop_spec h hstrategy hfuel hv hindex (by omega) (by omega) _

theorem initialSearchLoop_spec (hfits : Fits s search.pattern) (ht : search.Tabulated)
    (hstrategy : search.strategy = .initialSearch)
    (hfuel : subject.length + search.patternLength + 1 < fuel) (hindex : 0 ≤ index)
    (hle : index ≤ subject.length) (hsteps : subject.length - index < steps) (badness : ℤ) :
    search.Finds subject index
      (initialSearchLoop fuel search subject (subject.length - search.patternLength) steps index
        badness) := by
  have hlen : 1 < search.patternLength := by
    have := ht.length_gt
    have := ht.start_nonneg
    omega
  have hne : search.pattern ≠ [] :=
    ne_nil_of_length_pos (by unfold patternLength at hlen; omega)
  have hvalid : search.Valid := ⟨hne, by rw [hstrategy]; exact ⟨hfits, ht⟩⟩
  induction steps generalizing index badness with
  | zero => omega
  | succ steps ih =>
    unfold initialSearchLoop
    split
    · next hle' =>
      dsimp only
      split
      · obtain ⟨a, ha⟩ := exists_readVector (v := search.pattern) le_rfl
          (by unfold patternLength at hlen; omega)
        obtain ⟨i, hi, hfirst⟩ := findFirstCharacter_spec subject fuel hfits ha hindex
          (by unfold patternLength at hle'; omega) (by unfold patternLength at hfuel; omega)
        simp only [hi, bind_eq_bind, bind_some]
        split
        · next hnone =>
          subst hnone
          exact ⟨-1, search, rfl, hfirst.char_none ha hindex, hvalid, rfl⟩
        · next hsome =>
          obtain ⟨⟨hlow, hhigh⟩, hfound, -⟩ := IsFirst.char_step (r := i) ha hfirst hsome
          have hlt : i ≤ subject.length - search.patternLength := hhigh
          obtain ⟨j, hj, hiff⟩ := matchForwards_spec fuel (by omega) hhigh
            (by omega) hlen (by unfold patternLength at hfuel; omega)
          simp only [hj, bind_some]
          split
          · next hall => exact ⟨i, search, rfl, hfound (hiff.mp hall), hvalid, rfl⟩
          · next hmiss =>
            obtain ⟨r, search', heq, hnext, hrest⟩ := ih (show 0 ≤ i + 1 by omega) (by omega)
              (by omega) (badness + 1 + j)
            exact ⟨r, search', heq, (IsFirst.char_step ha hfirst hsome).2.2
              (fun h => hmiss (hiff.mpr h)) hnext, hrest⟩
      · obtain ⟨table, hbuild, hbad⟩ := populateBoyerMooreHorspoolTable_spec ht
        simp only [hbuild, bind_eq_bind, bind_some]
        exact boyerMooreHorspoolSearch_spec
          ⟨⟨ht.start_nonneg, ht.length_gt, ht.length_le⟩, hfits, hbad⟩ rfl hfuel hindex
    · next hgt => exact ⟨-1, search, rfl, .past hne hgt, hvalid, rfl⟩

/-- A pattern with a character that the subject's width does not have. -/
theorem not_occurs_of_not_fits (h : ¬Fits s pattern) (i : ℤ) : ¬Occurs pattern subject i := by
  intro hocc
  refine h fun a ha => ?_
  obtain ⟨k, hk, rfl⟩ := getElem_of_mem ha
  have hagrees := hocc k (Int.natCast_nonneg k) (by omega)
  rw [Agrees, readVector_natCast, getElem?_eq_getElem hk, map_some] at hagrees
  obtain ⟨b, -, hb⟩ := map_eq_some_iff.mp hagrees
  rw [BitVec.toNat_setWidth, ← hb, mod_eq_of_lt b.isLt]

/-- Of long patterns the last characters are in the tables, of others all. -/
theorem tabulated_of_start (hstart : search.start = max 0 (search.patternLength - kBMMaxShift))
    (hlen : 7 ≤ search.patternLength) : search.Tabulated := by
  have hmax : ((kBMMaxShift : ℕ) : ℤ) = 250 := rfl
  refine ⟨by omega, by omega, ?_⟩
  omega

/-- The constructor. -/
theorem new_valid (isolate : Tables) (hpattern : pattern ≠ []) :
    (new isolate pattern : StringSearch p s).Valid := by
  have hpos := length_pos_iff.mpr hpattern
  unfold new
  split
  · next hfail => exact ⟨hpattern, fun hfits => fits_iff.mp hfits hfail⟩
  next hfits =>
  have hfits := fits_iff.mpr hfits
  split
  · split
    · next hone => exact ⟨hpattern, hfits, hone⟩
    · next hmore => exact ⟨hpattern, hfits, show 1 < pattern.length by omega⟩
  · next hlong =>
    have hmin : 7 ≤ pattern.length := not_lt.mp hlong
    exact ⟨hpattern, hfits, tabulated_of_start rfl (Int.ofNat_le.mpr hmin)⟩

/-- **A search** with a valid object finds the first occurrence and leaves a valid
object. -/
theorem search_spec (h : search.Valid) (hindex : 0 ≤ index) (hle : index ≤ subject.length)
    (hfuel : subject.length + search.patternLength + 1 < fuel) :
    search.Finds subject index (search.search fuel subject index) := by
  have hreq := h.requires
  unfold StringSearch.search
  unfold patternLength at hfuel
  cases hstrategy : search.strategy with
  | failSearch =>
    rw [hstrategy] at hreq
    exact ⟨-1, search, rfl, .none fun k _ => not_occurs_of_not_fits hreq k, h, rfl⟩
  | singleCharSearch =>
    rw [hstrategy] at hreq
    exact h.finds (singleCharSearch_spec hreq.1 hreq.2 hindex hle (by omega))
  | linearSearch =>
    rw [hstrategy] at hreq
    exact h.finds (linearSearchLoop_spec hreq.1 hreq.2 hindex hle (by omega) (by omega))
  | initialSearch =>
    rw [hstrategy] at hreq
    exact initialSearchLoop_spec hreq.1 hreq.2 hstrategy hfuel hindex hle (by omega) _
  | boyerMooreHorspoolSearch =>
    rw [hstrategy] at hreq
    exact boyerMooreHorspoolSearch_spec hreq hstrategy hfuel hindex
  | boyerMooreSearch =>
    rw [hstrategy] at hreq
    exact h.finds (boyerMooreLoop_spec hreq.1 hreq.2 hfuel hindex (by omega) (by omega))

end Searches

/-! ## First occurrences -/

/-- `subject[i..i+m)` is the pattern. -/
def OccursAt (pattern : List (Character p)) (subject : List (Character s)) (i : ℕ) : Prop :=
  ((subject.drop i).take pattern.length).map BitVec.toNat = pattern.map BitVec.toNat

/-- `r` is the least position from `index` on where the pattern occurs, or -1 if
there is none. -/
def FirstOccurrence (pattern : List (Character p)) (subject : List (Character s)) (index : ℕ)
    (r : ℤ) : Prop :=
  (∃ i : ℕ, r = i ∧ index ≤ i ∧ OccursAt pattern subject i ∧
    ∀ k, index ≤ k → k < i → ¬OccursAt pattern subject k) ∨
  (r = -1 ∧ ∀ k, index ≤ k → ¬OccursAt pattern subject k)

theorem occursAt_iff (i : ℕ) : OccursAt pattern subject i ↔ Occurs pattern subject i := by
  have hread : ∀ q : ℕ, Agrees pattern subject i q ↔
      (subject[i + q]?).map BitVec.toNat = (pattern[q]?).map BitVec.toNat := by
    intro q
    rw [Agrees, ← cast_add, readVector_natCast, readVector_natCast]
  constructor
  · intro h q hq hqm
    obtain ⟨q, rfl⟩ := Int.eq_ofNat_of_zero_le hq
    have hget := congrArg (fun l => l[q]?) h
    rw [getElem?_map, getElem?_map, getElem?_take, if_pos (by omega), getElem?_drop] at hget
    exact (hread q).mpr hget
  · intro h
    refine ext_getElem? fun q => ?_
    rw [getElem?_map, getElem?_map, getElem?_take]
    split
    · rw [getElem?_drop]
      exact (hread q).mp (h q (Int.natCast_nonneg q) (by omega))
    · grind

theorem IsFirst.firstOccurrence {index : ℕ} {r : ℤ}
    (h : IsFirst (Occurs pattern subject) index r) : FirstOccurrence pattern subject index r := by
  rcases h with ⟨hle, hocc, hbefore⟩ | ⟨rfl, hnone⟩
  · obtain ⟨i, rfl⟩ := Int.eq_ofNat_of_zero_le (show 0 ≤ r by omega)
    exact .inl ⟨i, rfl, by omega, (occursAt_iff i).mpr hocc, fun k hk hki hat =>
      hbefore k (by omega) (by omega) ((occursAt_iff k).mp hat)⟩
  · exact .inr ⟨rfl, fun k hk hat => hnone k (by omega) ((occursAt_iff k).mp hat)⟩

/-- All shifts are at least 1: for any character of the subject against the last
of the pattern, where the last character agrees, and – once there is a table of
good suffixes – for any character at any position of the pattern. A search takes
its shifts from the tables of the object it leaves, since it builds each at most
once and changes none that it has used. -/
structure PositiveShifts (search : StringSearch p s) : Prop where
  badChar : search.strategy = .boyerMooreHorspoolSearch ∨ search.strategy = .boyerMooreSearch →
    ∀ c, ∃ v, search.badCharShift (search.patternLength - 1) c = some v ∧ 1 ≤ v
  lastChar : search.strategy = .boyerMooreHorspoolSearch ∨ search.strategy = .boyerMooreSearch →
    ∃ v, search.lastCharShift = some v ∧ 1 ≤ v
  goodSuffix : search.strategy = .boyerMooreSearch →
    ∀ j c, 0 ≤ j → j < search.patternLength →
      ∃ v, search.boyerMooreShift j c = some v ∧ 1 ≤ v

theorem Valid.positiveShifts {search : StringSearch p s} (h : search.Valid) :
    search.PositiveShifts := by
  have hreq := h.requires
  have hshift : search.strategy = .boyerMooreHorspoolSearch ∨
      search.strategy = .boyerMooreSearch → search.Shiftable := by
    rintro (heq | heq)
    · rw [heq] at hreq
      exact hreq
    · rw [heq] at hreq
      exact hreq.1
  refine ⟨fun hs c => ?_, fun hs => ?_, fun hs j c hj hjm => ?_⟩
  · obtain ⟨v, hv, hpos, -⟩ := badCharShift_spec (hshift hs).badChars (hshift hs).one_le
      (search.patternLength - 1) c
    exact ⟨v, hv, hpos rfl⟩
  · obtain ⟨v, hv, hpos, -⟩ := lastCharShift_spec (hshift hs).badChars (hshift hs).one_le
      (hshift hs).fits
    exact ⟨v, hv, hpos⟩
  · rw [hs] at hreq
    obtain ⟨v, hv, hpos, -⟩ := boyerMooreShift_spec hreq.1.tabulated hreq.1.badChars hreq.2
      hreq.1.fits hj hjm c
    exact ⟨v, hv, hpos⟩

/-- Searches one after the other, with a valid object. -/
theorem searches_spec {fuel : ℕ} {calls : List (List (Character s) × ℕ)}
    (hcalls : ∀ call ∈ calls, call.2 ≤ call.1.length)
    {search : StringSearch p s} (h : search.Valid)
    (hfuel : ∀ call ∈ calls, call.1.length + search.pattern.length + 2 ≤ fuel) :
    ∃ results search', searches fuel search calls = some (results, search') ∧
      List.Forall₂ (fun call r => FirstOccurrence search.pattern call.1 call.2 r) calls results ∧
      search'.Valid := by
  induction calls generalizing search with
  | nil => exact ⟨[], search, rfl, .nil, h⟩
  | cons call calls ih =>
    have hfuel' := hfuel call mem_cons_self
    obtain ⟨r, search₁, hr, hfirst, hvalid, hpattern⟩ :
        search.Finds call.1 call.2 (search.search fuel call.1 call.2) :=
      search_spec h (Int.natCast_nonneg call.2)
        (by exact_mod_cast hcalls call mem_cons_self) (by unfold patternLength; omega)
    obtain ⟨results, search', hrest, hall, hvalid'⟩ :=
      ih (fun c hc => hcalls c (mem_cons_of_mem _ hc)) hvalid
        (fun c hc => hpattern ▸ hfuel c (mem_cons_of_mem _ hc))
    refine ⟨r :: results, search', ?_, .cons hfirst.firstOccurrence (hpattern ▸ hall), hvalid'⟩
    unfold searches
    simp only [hr, hrest, Option.bind_eq_bind, Option.bind_some]

/-- **String search finds first occurrences.** Any number of searches with one
object, each from an index within its subject, find the first occurrence from
there on; no index of a vector or table is out of range, the loops take as many
iterations as the subject and the pattern are long at most, and all shifts are
positive. -/
theorem searches_firstOccurrence (isolate : Tables) (hpattern : pattern ≠ []) {fuel : ℕ}
    (calls : List (List (Character s) × ℕ)) (hcalls : ∀ call ∈ calls, call.2 ≤ call.1.length)
    (hfuel : ∀ call ∈ calls, call.1.length + pattern.length + 2 ≤ fuel) :
    ∃ results search, searches fuel (new isolate pattern) calls = some (results, search) ∧
      List.Forall₂ (fun call r => FirstOccurrence pattern call.1 call.2 r) calls results ∧
      search.PositiveShifts := by
  have hnew : (new isolate pattern : StringSearch p s).pattern = pattern := by
    unfold new
    split_ifs <;> rfl
  obtain ⟨results, search, heq, hall, hvalid⟩ := searches_spec hcalls
    (new_valid isolate hpattern) (by rwa [hnew])
  rw [hnew] at hall
  exact ⟨results, search, heq, hall, hvalid.positiveShifts⟩

/-- A one-byte pattern. -/
def needle : List (Character .oneByte) := [1, 2, 1, 2, 1, 2, 3]

/-- Two searches in two-byte subjects. -/
def haystacks : List (List (Character .twoByte) × ℕ) :=
  [([1, 2, 1, 2, 1, 2, 1, 2, 3], 0), ([0x101, 2], 1)]

/-- Two searches, whatever the tables of the isolate have been used for before. -/
theorem searches_firstOccurrence_needle :
    ∃ results search,
      searches 20 (new ⟨.replicate _ 9, .replicate _ 9, .replicate _ 9⟩ needle) haystacks =
        some (results, search) ∧
      List.Forall₂ (fun call r => FirstOccurrence needle call.1 call.2 r) haystacks results ∧
      search.PositiveShifts :=
  searches_firstOccurrence _ (by decide) haystacks (by decide) (by decide)

end StringSearch
