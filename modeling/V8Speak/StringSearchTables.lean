import Mathlib
import V8Speak.Borders
import V8Speak.StringSearch

/-!
# The tables of a string search

What the two tables say about the pattern once they have been built, and that
building them stays in range. An entry of the table of bad characters is a
position after which no character of its bucket occurs, the last position of the
pattern apart (`BadChars`); an entry of the table of good suffixes is a safe
shift of the part of the pattern that is in the tables (`GoodSuffixes`).

The tables are read through pointers biased by `start`; `Table.Holds` relates
such a table to a function on the positions of the pattern. The loops of
`populateBoyerMooreTable` are then steps of a walk along borders.
-/

open Option Int Function

namespace StringSearch

variable {α : Type} {p s w : CharWidth} {n : ℕ}

/-! ## Vectors -/

theorem readVector_natCast (v : List α) (i : ℕ) : readVector v i = v[i]? := by
  rw [readVector, if_pos (natCast_nonneg i), toNat_natCast]

variable {i : ℤ}

theorem exists_readVector {v : List α} (hi : 0 ≤ i) (hlt : i < v.length) :
    ∃ a, readVector v i = some a := by
  obtain ⟨k, rfl⟩ := eq_ofNat_of_zero_le hi
  rw [readVector_natCast]
  exact ⟨_, List.getElem?_eq_getElem (by omega)⟩

theorem lt_of_readVector {v : List α} {a : α} (h : readVector v i = some a) :
    0 ≤ i ∧ i < v.length := by
  unfold readVector at h
  split at h
  · next hi =>
    obtain ⟨hlt, -⟩ := List.getElem?_eq_some_iff.mp h
    omega
  · exact nomatch h

theorem mem_of_readVector {v : List α} {a : α} (h : readVector v i = some a) : a ∈ v := by
  unfold readVector at h
  split at h
  · exact List.mem_of_getElem? h
  · exact nomatch h

/-! ## Tables -/

variable (table : Table n)

theorem Table.write_spec (hi : 0 ≤ i) (hlt : i < n) (v : ℤ) :
    ∃ table', table.write i v = some table' ∧
      ∀ j, table'.read j = if j = i then some v else table.read j := by
  obtain ⟨k, rfl⟩ := eq_ofNat_of_zero_le hi
  have hk : k < n := by omega
  refine ⟨_, dif_pos ⟨hi, hk⟩, fun j => ?_⟩
  unfold read
  by_cases hj : 0 ≤ j
  · obtain ⟨l, rfl⟩ := eq_ofNat_of_zero_le hj
    rw [if_pos hj, if_pos hj]
    simp only [toNat_natCast, Vector.getElem?_set, natCast_inj]
    by_cases hkl : k = l
    · rw [if_pos hkl, if_pos hkl.symm]
    · rw [if_neg hkl, if_neg (Ne.symm hkl)]
  · rw [if_neg hj, if_neg hj, if_neg (by omega)]

/-- Through a pointer biased by `lo`, the table has the values of `f` from `lo`
to `hi`. -/
def Table.Holds (table : Table n) (lo hi : ℤ) (f : ℤ → ℤ) : Prop :=
  ∀ k, lo ≤ k → k ≤ hi → table.read (k - lo) = some (f k)

theorem Table.Holds.write {table : Table n} {lo hi : ℤ} {f : ℤ → ℤ} (h : table.Holds lo hi f)
    (hn : hi - lo < n) {i : ℤ} (hlo : lo ≤ i) (hhi : i ≤ hi) (v : ℤ) :
    ∃ table', table.write (i - lo) v = some table' ∧ table'.Holds lo hi (update f i v) := by
  obtain ⟨table', heq, hread⟩ := table.write_spec (i := i - lo) (by omega) (by omega) v
  refine ⟨table', heq, fun k hk hkhi => ?_⟩
  rw [hread, update_apply]
  by_cases hki : k = i
  · rw [if_pos (by omega), if_pos hki]
  · rw [if_neg (by omega), if_neg hki]
    exact h k hk hkhi

theorem Table.exists_holds {lo hi : ℤ} (hn : hi - lo < n) : ∃ f, table.Holds lo hi f := by
  refine ⟨fun k => (table.read (k - lo)).getD 0, fun k hk hkhi => ?_⟩
  have hlt : (k - lo).toNat < n := by omega
  dsimp only
  rw [read, if_pos (by omega), Vector.getElem?_eq_getElem hlt]
  rfl

/-! ## Counting loops -/

variable {start stop : ℤ}

theorem interval_nil (h : stop ≤ start) : interval start stop = [] := by
  rw [interval, toNat_of_nonpos (by omega)]
  rfl

theorem interval_cons (h : start < stop) :
    interval start stop = start :: interval (start + 1) stop := by
  obtain ⟨k, hk⟩ : ∃ k, (stop - start).toNat = k + 1 := ⟨(stop - start).toNat - 1, by omega⟩
  unfold interval
  rw [hk, show (stop - (start + 1)).toNat = k by omega, List.range_succ_eq_map, List.map_cons,
    List.map_map]
  refine congrArg₂ _ (by simp) (List.map_congr_left fun i _ => ?_)
  show start + ((i + 1 : ℕ) : ℤ) = start + 1 + i
  omega

/-- **The rule of counting loops.** An invariant that every iteration keeps holds
at the end, and no iteration fails. -/
theorem foldlM_interval {σ : Type} {body : σ → ℤ → Option σ} {stop : ℤ} (Inv : ℤ → σ → Prop)
    {start : ℤ} (hle : start ≤ stop)
    (hstep : ∀ i state, start ≤ i → i < stop → Inv i state →
      ∃ state', body state i = some state' ∧ Inv (i + 1) state')
    {state : σ} (hinv : Inv start state) :
    ∃ state', (interval start stop).foldlM body state = some state' ∧ Inv stop state' := by
  obtain ⟨k, hk⟩ : ∃ k : ℕ, stop - start = k := eq_ofNat_of_zero_le (by omega)
  induction k generalizing start state with
  | zero =>
    obtain rfl : start = stop := by omega
    rw [interval_nil le_rfl]
    exact ⟨state, rfl, hinv⟩
  | succ k ih =>
    have hlt : start < stop := by omega
    obtain ⟨mid, hbody, hmid⟩ := hstep start state le_rfl hlt hinv
    rw [interval_cons hlt, List.foldlM_cons, hbody]
    exact ih hlt (fun i state hi => hstep i state (by omega)) hmid (by omega)

/-! ## Bad characters -/

/-- The part of the pattern in the tables is not empty, and fits them. -/
structure Tabulated (search : StringSearch p s) : Prop where
  start_nonneg : 0 ≤ search.start
  length_gt : 1 < search.patternLength - search.start
  length_le : search.patternLength - search.start ≤ kBMMaxShift

variable (search : StringSearch p s)

/-- The entries of the table of bad characters. -/
def BadChars : Prop :=
  ∀ b : ℕ, b < kUC16AlphabetSize → ∃ v, search.isolate.badCharShiftTable.read b = some v ∧
    -1 ≤ v ∧ v ≤ search.patternLength - 2 ∧
    ∀ q c, v < q → q < search.patternLength - 1 → readVector search.pattern q = some c →
      bucket c ≠ b

theorem bucket_lt (c : Character p) : bucket c < kUC16AlphabetSize := by
  cases p
  · exact c.isLt
  · exact Nat.mod_lt _ (by decide)

theorem Table.fill_spec {count : ℕ} (hcount : count ≤ n) (v : ℤ) :
    ∃ table', table.fill count v = some table' ∧ ∀ b : ℕ, b < count → table'.read b = some v := by
  obtain ⟨table', heq, hinv⟩ := foldlM_interval
    (fun i (table : Table n) => ∀ b : ℕ, b < i → table.read b = some v)
    (natCast_nonneg count)
    (fun i table hi hlt hinv => by
      obtain ⟨table', heq, hread⟩ := table.write_spec hi (by omega) v
      refine ⟨table', heq, fun b hb => ?_⟩
      rw [hread]
      split
      · rfl
      · exact hinv b (by omega))
    (fun b hb => absurd hb (by omega))
  exact ⟨table', heq, fun b hb => hinv b (by omega)⟩

/-- The search object with another table of bad characters. -/
def setBadChars (table : Table kUC16AlphabetSize) : StringSearch p s :=
  { search with isolate := { search.isolate with badCharShiftTable := table } }

theorem clearBadChars_spec : ∃ table, search.clearBadChars = some table ∧
      ∀ b : ℕ, b < kUC16AlphabetSize → table.read b = some (search.start - 1) := by
  obtain ⟨table, hfill, hread⟩ := search.isolate.badCharShiftTable.fill_spec le_rfl
    (search.start - 1)
  have hsize : alphabetSize p = kUC16AlphabetSize := by cases p <;> rfl
  refine ⟨table, ?_, hread⟩
  simp only [clearBadChars, hsize]
  split
  · next h =>
    rw [h] at hfill
    exact hfill
  · exact hfill

/-- Entries are positions before `i`, with no character of the bucket in between. -/
def BadCharsBefore (i : ℤ) (table : Table kUC16AlphabetSize) : Prop :=
  ∀ b : ℕ, b < kUC16AlphabetSize → ∃ v, table.read b = some v ∧ -1 ≤ v ∧ v < i ∧
    ∀ q c, v < q → q < i → readVector search.pattern q = some c → bucket c ≠ b

theorem registerChar_spec {search : StringSearch p s} (hi : 0 ≤ i)
    (hlt : i < search.patternLength) {table : Table kUC16AlphabetSize}
    (hinv : search.BadCharsBefore i table) :
    ∃ table', search.registerChar table i = some table' ∧ search.BadCharsBefore (i + 1) table' := by
  obtain ⟨c, hc⟩ := exists_readVector hi hlt
  obtain ⟨table', heq, hread⟩ := table.write_spec (natCast_nonneg (bucket c))
    (ofNat_lt.mpr (bucket_lt c)) i
  refine ⟨table', by rw [registerChar, hc]; exact heq, fun b hb => ?_⟩
  rw [hread]
  by_cases hbc : (b : ℤ) = bucket c
  · exact ⟨i, if_pos hbc, by omega, by omega, fun q _ hq hqi => absurd hq (by omega)⟩
  · obtain ⟨v, hv, hlow, hvi, hnone⟩ := hinv b hb
    refine ⟨v, by rw [if_neg hbc, hv], hlow, by omega, fun q a hq hqi ha => ?_⟩
    rcases eq_or_lt_of_le (show q ≤ i by omega) with rfl | hlt'
    · obtain rfl : c = a := Option.some.inj (hc.symm.trans ha)
      exact fun h => hbc (by rw [h])
    · exact hnone q a hq hlt' ha

theorem populateBoyerMooreHorspoolTable_spec {search : StringSearch p s} (ht : search.Tabulated) :
    ∃ table, search.populateBoyerMooreHorspoolTable = some (search.setBadChars table) ∧
      (search.setBadChars table).BadChars := by
  have hstart := ht.start_nonneg
  have hlen := ht.length_gt
  obtain ⟨blank, hclear, hblank⟩ := search.clearBadChars_spec
  have hinit : search.BadCharsBefore search.start blank := fun b hb =>
    ⟨search.start - 1, hblank b hb, by omega, by omega, fun q _ hq hqi => absurd hq (by omega)⟩
  obtain ⟨table, hloop, hinv⟩ := foldlM_interval search.BadCharsBefore
    (show search.start ≤ search.patternLength - 1 by omega)
    (fun i table hi hlt => registerChar_spec (by omega) (by omega)) hinit
  refine ⟨table, ?_, fun b hb => ?_⟩
  · rw [populateBoyerMooreHorspoolTable, hclear, Option.bind_eq_bind, Option.bind_some, hloop]
    rfl
  · obtain ⟨v, hv, hlow, hlt, hnone⟩ := hinv b hb
    exact ⟨v, hv, hlow, by show v ≤ search.patternLength - 2; omega, hnone⟩

/-! ## Good suffixes -/

/-- The pattern, read at the positions of its table. -/
abbrev word : ℤ → Option (Character p) := readVector search.pattern

/-- The entries of the table of good suffixes. -/
def GoodSuffixes : Prop :=
  ∀ k, search.start < k → k ≤ search.patternLength → ∃ v, search.goodSuffixShift k = some v ∧
    Borders.SafeShift search.word search.start search.patternLength k v

/-- The tables have the values of `shift` and `f`. -/
structure SuffixTables.Holds (tables : SuffixTables) (lo hi : ℤ) (shift f : ℤ → ℤ) : Prop where
  shiftTable : tables.shiftTable.Holds lo hi shift
  suffixTable : tables.suffixTable.Holds lo hi f

section Tables

variable {tables : SuffixTables} {lo hi i v length : ℤ} {shift f : ℤ → ℤ}

theorem SuffixTables.Holds.setShift (h : tables.Holds lo hi shift f) (hn : hi - lo ≤ kBMMaxShift)
    (hlo : lo ≤ i) (hhi : i ≤ hi) (length v : ℤ) :
    ∃ tables', tables.setShift lo length i v = some tables' ∧
      tables'.Holds lo hi (Borders.setShift shift length i v) f := by
  unfold SuffixTables.setShift Borders.setShift
  rw [h.shiftTable i hlo hhi, Option.bind_eq_bind, Option.bind_some]
  split
  · obtain ⟨table, hwrite, hholds⟩ := h.shiftTable.write (by omega) hlo hhi v
    exact ⟨{ tables with shiftTable := table }, by rw [hwrite]; rfl, hholds, h.suffixTable⟩
  · exact ⟨_, rfl, h⟩

theorem SuffixTables.Holds.setSuffix (h : tables.Holds lo hi shift f) (hn : hi - lo ≤ kBMMaxShift)
    (hlo : lo ≤ i) (hhi : i ≤ hi) (v : ℤ) :
    ∃ tables', tables.setSuffix lo i v = some tables' ∧
      tables'.Holds lo hi shift (update f i v) := by
  obtain ⟨table, hwrite, hholds⟩ := h.suffixTable.write (by omega) hlo hhi v
  exact ⟨{ tables with suffixTable := table }, by rw [SuffixTables.setSuffix, hwrite]; rfl,
    h.shiftTable, hholds⟩

end Tables

section Build

variable {search : StringSearch p s} {tables : SuffixTables} {i suffix : ℤ} {shift f : ℤ → ℤ}

/-- The longest borders of the suffixes from `i` on are in the tables, and the
shifts they give. -/
def Found (tables : SuffixTables) (i suffix : ℤ) : Prop :=
  ∃ shift f, tables.Holds search.start search.patternLength shift f ∧
    Borders.Suffixes search.word search.patternLength i f ∧ suffix = f i ∧
    Borders.GoodSuffix search.word search.start search.patternLength i shift

variable (ht : search.Tabulated)
include ht

/-- `suffix_table[--i] = --suffix`, where the walk along the borders of the suffix
from `i` on has ended. -/
theorem setSuffix_found (hi : search.start < i) (him : i ≤ search.patternLength)
    (hholds : tables.Holds search.start search.patternLength shift f)
    (hf : Borders.Suffixes search.word search.patternLength i f)
    (hwalk : Borders.Walk search.word search.start search.patternLength i suffix shift)
    (hstop : suffix ≤ search.patternLength → search.word (i - 1) = search.word (suffix - 1)) :
    ∃ tables', tables.setSuffix search.start (i - 1) (suffix - 1) = some tables' ∧
      search.Found tables' (i - 1) (suffix - 1) := by
  obtain ⟨hgood, hlongest⟩ := hwalk.pred him hstop
  obtain ⟨tables', hset, hholds'⟩ := hholds.setSuffix ht.length_le
    (show search.start ≤ i - 1 by omega) (by omega) (suffix - 1)
  exact ⟨tables', hset, shift, _, hholds', hf.pred (by omega) hlongest, by rw [update_self], hgood⟩

variable {fuel : ℕ}

/-- Following the borders of the suffix from `i` on, up to the longest that can
be extended. -/
theorem followSuffixes_spec {c : Character p}
    (hc : search.word (i - 1) = some c) (hi : search.start < i)
    (hf : Borders.Suffixes search.word search.patternLength i f)
    (hfuel : search.patternLength + 1 - suffix < fuel)
    (hholds : tables.Holds search.start search.patternLength shift f)
    (hwalk : Borders.Walk search.word search.start search.patternLength i suffix shift) :
    ∃ suffix' tables' shift',
      followSuffixes search (search.patternLength - search.start) c i fuel suffix tables =
        some (suffix', tables') ∧
      tables'.Holds search.start search.patternLength shift' f ∧
      Borders.Walk search.word search.start search.patternLength i suffix' shift' ∧
      (suffix' ≤ search.patternLength → search.word (i - 1) = search.word (suffix' - 1)) := by
  have hstart := ht.start_nonneg
  induction fuel generalizing suffix tables shift with
  | zero =>
    have hle : suffix ≤ search.patternLength + 1 := by
      rcases hwalk.border with h | h
      · exact h.le
      · have := h.2.1
        omega
    omega
  | succ fuel ih =>
    unfold followSuffixes
    split
    · next hle =>
      have hborder := hwalk.border.resolve_left (by omega)
      have hlt := hborder.1
      obtain ⟨a, ha⟩ := exists_readVector (v := search.pattern) (i := suffix - 1) (by omega)
        (by unfold patternLength at hle; omega)
      simp only [ha, bind_eq_bind, bind_some]
      split
      · next hne =>
        obtain ⟨tables', hset, hholds'⟩ := hholds.setShift ht.length_le (by omega) hle
          (search.patternLength - search.start) (suffix - i)
        have hstep := hwalk.step hf hi hle (by
          rw [hc, show search.word (suffix - 1) = some a from ha]
          exact fun h => hne (Option.some.inj h))
        simp only [hset, hholds'.suffixTable suffix (by omega) hle, bind_some]
        have hnext : suffix < f suffix := by
          rcases eq_or_lt_of_le hle with heq | hlt
          · rw [heq, hf.last]
            omega
          · exact (hf.longest suffix (by omega) hlt).1.1
        exact ih (by omega) hholds' hstep
      · next heq =>
        exact ⟨suffix, tables, shift, rfl, hholds, hwalk, fun _ => by
          rw [hc, show search.word (suffix - 1) = some a from ha, not_not.mp heq]⟩
    · next hgt => exact ⟨suffix, tables, shift, rfl, hholds, hwalk, fun h => absurd h hgt⟩

variable {lastChar : Character p}

/-- Skipping to the next occurrence of the last character, while the longest
border is the empty one. -/
theorem skipToLastChar_spec (hlast : search.word (search.patternLength - 1) = some lastChar)
    (hfuel : i - search.start < fuel) (hi : search.start ≤ i) (him : i < search.patternLength)
    (hfound : search.Found tables i search.patternLength) :
    ∃ i' tables', skipToLastChar search (search.patternLength - search.start) lastChar fuel i
        tables = some (i', tables') ∧
      search.start ≤ i' ∧ i' ≤ i ∧ search.Found tables' i' search.patternLength ∧
      (search.start < i' → search.word (i' - 1) = some lastChar) := by
  have hstart := ht.start_nonneg
  induction fuel generalizing i tables with
  | zero => omega
  | succ fuel ih =>
    unfold skipToLastChar
    split
    · next hgt =>
      obtain ⟨a, ha⟩ := exists_readVector (v := search.pattern) (i := i - 1) (by omega)
        (by unfold patternLength at him; omega)
      simp only [ha, bind_eq_bind, bind_some]
      split
      · next hne =>
        obtain ⟨shift, f, hholds, hf, hsuffix, hgood⟩ := hfound
        obtain ⟨tables₁, hset, hholds₁⟩ := hholds.setShift ht.length_le (by omega) le_rfl
          (search.patternLength - search.start) (search.patternLength - i)
        have hwalk := hgood.walk hf him.le
        rw [← hsuffix] at hwalk
        have hstep := hwalk.step hf hgt le_rfl (by
          rw [hlast, show search.word (i - 1) = some a from ha]
          exact fun h => hne (Option.some.inj h))
        rw [hf.last] at hstep
        obtain ⟨tables₂, hset₂, hfound₂⟩ := setSuffix_found ht hgt him.le hholds₁ hf hstep
          (fun h => absurd h (by omega))
        rw [add_sub_cancel_right] at hset₂ hfound₂
        simp only [hset, hset₂, bind_some]
        obtain ⟨i', tables', heq, hle, hle', hrest⟩ := ih (by omega) (by omega) (by omega) hfound₂
        exact ⟨i', tables', heq, hle, by omega, hrest⟩
      · next heq =>
        exact ⟨i, tables, rfl, hi, le_rfl, hfound, fun _ => by
          rw [show search.word (i - 1) = some a from ha, not_not.mp heq]⟩
    · next hle => exact ⟨i, tables, rfl, hi, le_rfl, hfound, fun h => absurd h hle⟩

/-- **Finding suffixes** ends with the longest borders of all suffixes. -/
theorem findSuffixes_spec
    (hlast : search.word (search.patternLength - 1) = some lastChar) {fuel steps : ℕ}
    (hfuel : search.patternLength + 1 < fuel) (hsteps : i - search.start < steps)
    (hi : search.start ≤ i) (him : i ≤ search.patternLength)
    (hfound : search.Found tables i suffix) :
    ∃ suffix' tables', findSuffixes fuel search (search.patternLength - search.start) lastChar
        steps i suffix tables = some (suffix', tables') ∧
      search.Found tables' search.start suffix' := by
  have hstart := ht.start_nonneg
  induction steps generalizing i suffix tables with
  | zero => omega
  | succ steps ih =>
    unfold findSuffixes
    split
    · next hgt =>
      obtain ⟨c, hc⟩ := exists_readVector (v := search.pattern) (i := i - 1) (by omega)
        (by unfold patternLength at him; omega)
      obtain ⟨shift, f, hholds, hf, rfl, hgood⟩ := hfound
      have hwalk := hgood.walk hf him
      have hpos : 0 < f i := by
        rcases hwalk.border with h | h
        · omega
        · have := h.1
          omega
      obtain ⟨suffix₁, tables₁, shift₁, hfollow, hholds₁, hwalk₁, hstop⟩ :=
        followSuffixes_spec ht hc hgt hf
          (show search.patternLength + 1 - f i < fuel by omega) hholds hwalk
      obtain ⟨tables₂, hset, hfound₂⟩ := setSuffix_found ht hgt him hholds₁ hf hwalk₁ hstop
      simp only [hc, hfollow, hset, bind_eq_bind, bind_some]
      split
      · next hempty =>
        rw [hempty] at hfound₂ ⊢
        obtain ⟨i', tables', hskip, hlo, hle, hfound', hchar⟩ :=
          skipToLastChar_spec ht hlast (show i - 1 - search.start < fuel by omega) (by omega)
            (by omega) hfound₂
        simp only [hskip, bind_some]
        split
        · next hgt' =>
          obtain ⟨shift', f', hholds', hf', hsuffix', hgood'⟩ := hfound'
          have hwalk' := hgood'.walk hf' (by omega)
          rw [← hsuffix'] at hwalk'
          obtain ⟨tables₃, hset₃, hfound₃⟩ := setSuffix_found ht hgt' (by omega) hholds' hf' hwalk'
            (fun _ => by rw [hchar hgt', hlast])
          simp only [hset₃, bind_some]
          exact ih (by omega) (by omega) (by omega) hfound₃
        · exact ih (by omega) (by omega) (by omega) hfound'
      · exact ih (by omega) (by omega) (by omega) hfound₂
    · next hle =>
      obtain rfl : i = search.start := by omega
      exact ⟨suffix, tables, rfl, hfound⟩

/-- Before position `i` the shifts left over are built; `suffix` is the leftmost
border of the whole word from `i` on. -/
structure Building (search : StringSearch p s) (shift f : ℤ → ℤ) (i : ℤ)
    (state : ℤ × SuffixTables) : Prop where
  built : ∃ built, state.2.Holds search.start search.patternLength built f ∧
    (∀ k, i ≤ k → built k = shift k) ∧
    ∀ k, search.start < k → k < i →
      Borders.SafeShift search.word search.start search.patternLength k (built k)
  border : i ≤ search.patternLength → i ≤ state.1 ∧
    Borders.IsBorder search.word search.patternLength search.start state.1
  leftmost : ∀ c, Borders.IsBorder search.word search.patternLength search.start c → i ≤ c →
    state.1 ≤ c

omit ht in
/-- The shift of the empty suffix is safe as it is. -/
theorem safeShift_one (k : ℤ) :
    Borders.SafeShift search.word search.start search.patternLength k 1 :=
  ⟨le_rfl, fun _ ht => ht.1⟩

omit ht in
/-- A table of shifts is safe at `k` once its entry, if it is not set, is taken
from the leftmost border from `k` on. -/
theorem safeShift_setShift (hgood : Borders.GoodSuffix search.word search.start
      search.patternLength search.start shift) {k b : ℤ} (hk : search.start < k) (hkb : k ≤ b)
    (hb : b ≤ search.patternLength)
    (hmin : ∀ c, Borders.IsBorder search.word search.patternLength search.start c → k ≤ c → b ≤ c) :
    Borders.SafeShift search.word search.start search.patternLength k
      (if shift k = search.patternLength - search.start then b - search.start else shift k) := by
  split
  · next hunset => exact hgood.safe_of_unset hk hunset hkb hb hmin
  · next hset =>
    rcases eq_or_lt_of_le (hkb.trans hb) with rfl | hlt
    · rw [hgood.last]
      exact safeShift_one _
    · exact hgood.safe_of_set hk hlt hset

theorem buildShift_spec (hf : Borders.Suffixes search.word search.patternLength search.start f)
    (hgood : Borders.GoodSuffix search.word search.start search.patternLength search.start shift)
    (hi : search.start ≤ i) (him : i < search.patternLength + 1) {state : ℤ × SuffixTables}
    (hinv : search.Building shift f i state) :
    ∃ state', search.buildShift (search.patternLength - search.start) state i = some state' ∧
      search.Building shift f (i + 1) state' := by
  obtain ⟨suffix, tables⟩ := state
  obtain ⟨⟨built, hholds, hrest, hsafe⟩, hborder, hleft⟩ := hinv
  obtain ⟨hle, hb⟩ := hborder (by omega)
  obtain ⟨tables', hset, hholds'⟩ := hholds.setShift ht.length_le hi (by omega)
    (search.patternLength - search.start) (suffix - search.start)
  have hbuilt : ∃ built, tables'.Holds search.start search.patternLength built f ∧
      (∀ k, i + 1 ≤ k → built k = shift k) ∧
      ∀ k, search.start < k → k < i + 1 →
        Borders.SafeShift search.word search.start search.patternLength k (built k) := by
    refine ⟨_, hholds', fun k hk => ?_, fun k hk hki => ?_⟩
    · rw [Borders.setShift_of_ne (by omega)]
      exact hrest k (by omega)
    · by_cases heq : k = i
      · subst heq
        rw [Borders.setShift_self, hrest k le_rfl]
        exact safeShift_setShift hgood hk hle hb.2.1 hleft
      · rw [Borders.setShift_of_ne heq]
        exact hsafe k hk (by omega)
  unfold buildShift
  simp only [hset, bind_eq_bind, bind_some]
  split
  · next heq =>
    subst heq
    rw [hholds'.suffixTable i hi hb.2.1, bind_some]
    refine ⟨_, rfl, hbuilt, fun hlt => ?_, fun c hc hic => ?_⟩
    · have hlongest := (hf.longest i hi (by omega)).1
      exact ⟨hlongest.1, hb.trans hlongest⟩
    · have hlt : i < search.patternLength := by
        have := hc.2.1
        omega
      exact (hf.longest i hi hlt).2 c (hb.of_lt hc (by omega))
  · next hne =>
    exact ⟨_, rfl, hbuilt, fun _ => ⟨by dsimp only; omega, hb⟩,
      fun c hc hic => hleft c hc (by omega)⟩

theorem clearSuffixes_spec :
    ∃ tables, search.clearSuffixes (search.patternLength - search.start) = some tables ∧
      search.Found tables search.patternLength (search.patternLength + 1) := by
  have hlen := ht.length_gt
  have hfit : search.patternLength - search.start < (kBMMaxShift + 1 : ℕ) := by
    have := ht.length_le
    omega
  obtain ⟨shift, hshift⟩ := search.isolate.goodSuffixShiftTable.exists_holds hfit
  obtain ⟨f, hf⟩ := search.isolate.suffixTable.exists_holds hfit
  obtain ⟨table, hloop, shift₁, hholds₁, hunset⟩ := foldlM_interval
    (fun i (table : Table (kBMMaxShift + 1)) => ∃ shift,
      table.Holds search.start search.patternLength shift ∧
      ∀ k, search.start ≤ k → k < i → shift k = search.patternLength - search.start)
    (show search.start ≤ search.patternLength by omega)
    (fun i table hi hlt ⟨shift, hholds, hunset⟩ => by
      obtain ⟨table', hwrite, hholds'⟩ := hholds.write hfit hi hlt.le
        (search.patternLength - search.start)
      refine ⟨table', hwrite, _, hholds', fun k hk hki => ?_⟩
      rw [update_apply]
      split
      · rfl
      · exact hunset k hk (by omega))
    ⟨shift, hshift, fun k hk hki => absurd hki (by omega)⟩
  obtain ⟨table₂, hwrite₂, hholds₂⟩ := hholds₁.write hfit (by omega) le_rfl 1
  obtain ⟨table₃, hwrite₃, hholds₃⟩ := hf.write hfit (by omega) le_rfl (search.patternLength + 1)
  refine ⟨⟨table₂, table₃⟩, ?_, _, _, ⟨hholds₂, hholds₃⟩, Borders.Suffixes.start,
    by rw [update_self], Borders.GoodSuffix.start hlen (update_self ..) fun k hk hkm => ?_⟩
  · unfold clearSuffixes
    simp only [hloop, hwrite₂, hwrite₃, Option.bind_eq_bind, Option.bind_some]
  · rw [update_of_ne hkm.ne]
    exact hunset k hk.le hkm

omit ht in
/-- The entries of the table, whether or not shifts are left over. -/
theorem goodSuffixes_setSuffixTables {built : ℤ → ℤ}
    (hholds : tables.Holds search.start search.patternLength built f)
    (hsafe : ∀ k, search.start < k → k ≤ search.patternLength →
      Borders.SafeShift search.word search.start search.patternLength k (built k)) :
    (search.setSuffixTables tables).GoodSuffixes :=
  fun k hk hkm => ⟨built k, hholds.shiftTable k hk.le hkm, hsafe k hk hkm⟩

/-- **The table of good suffixes** is built without an index out of range, and
its entries are safe shifts. -/
theorem populateBoyerMooreTable_spec (hfuel : search.patternLength + 1 < fuel) :
    ∃ tables, search.populateBoyerMooreTable fuel = some (search.setSuffixTables tables) ∧
      (search.setSuffixTables tables).GoodSuffixes := by
  have hstart := ht.start_nonneg
  have hlen := ht.length_gt
  obtain ⟨tables₀, hclear, hfound₀⟩ := clearSuffixes_spec ht
  obtain ⟨lastChar, hlast⟩ := exists_readVector (v := search.pattern)
    (i := search.patternLength - 1) (by omega) (by unfold patternLength; omega)
  obtain ⟨suffix, tables₁, hfind, shift, f, hholds, hf, rfl, hgood⟩ :=
    findSuffixes_spec ht hlast hfuel (show search.patternLength - search.start < fuel by omega)
      (by omega) le_rfl hfound₀
  have hlongest := hf.longest search.start le_rfl (by omega)
  unfold populateBoyerMooreTable
  simp only [hclear, hlast, hfind, Option.bind_eq_bind, Option.bind_some,
    if_neg (show ¬search.patternLength ≤ search.start by omega)]
  split
  · have hinit : search.Building shift f search.start (f search.start, tables₁) :=
      ⟨⟨shift, hholds, fun _ _ => rfl, fun k hk hlt => absurd hk (by omega)⟩,
        fun _ => ⟨hlongest.1.1.le, hlongest.1⟩, fun c hc _ => hlongest.2 c hc⟩
    obtain ⟨state, hloop, ⟨built, hholds', -, hsafe⟩, -, -⟩ :=
      foldlM_interval (search.Building shift f) (by omega)
        (fun i state hi him => buildShift_spec ht hf hgood hi him) hinit
    rw [hloop]
    exact ⟨_, rfl, goodSuffixes_setSuffixTables hholds' fun k hk hkm => hsafe k hk (by omega)⟩
  · next hge =>
    -- only the empty border: entries not set keep the length
    refine ⟨_, rfl, goodSuffixes_setSuffixTables hholds fun k hk hkm => ?_⟩
    have hsafe := safeShift_setShift hgood hk hkm le_rfl
      (fun c hc _ => (not_lt.mp hge).trans (hlongest.2 c hc))
    rwa [ite_eq_right_iff.mpr fun h => h.symm] at hsafe

end Build

end StringSearch
