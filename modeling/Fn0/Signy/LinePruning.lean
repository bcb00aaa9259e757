/-
What a line filter answers.

The bitmap has the trigrams of the lowercased lines and no others, so that the filter has them inserted (`mem_items`).
A needle is looked up by the trigrams of its own lowercasing. Both lowercasings agree but for capital sigmas, and a
needle is found in every line it occurs in exactly when its trigrams are among those its scalars give (`SigmaSafe`).
-/
import Fn0.Signy.Trigrams

namespace Signy

/-! ## Windows -/

theorem mem_windows3 {w v : Bytes} : w ∈ windows3 v ↔ w.length = 3 ∧ w <:+: v := by
  fun_induction windows3 v with
  | case1 a b c rest ih =>
    have hcons : w <:+: a :: b :: c :: rest ↔ w <+: a :: b :: c :: rest ∨ w <:+: b :: c :: rest :=
      List.infix_cons_iff
    rw [List.mem_cons, ih, hcons]
    constructor
    · rintro (rfl | ⟨hlength, hwithin⟩)
      · exact ⟨rfl, .inl ⟨rest, rfl⟩⟩
      · exact ⟨hlength, .inr hwithin⟩
    · rintro ⟨hlength, hhead | hwithin⟩
      · have heq := List.prefix_iff_eq_take.mp hhead
        rw [hlength] at heq
        exact .inl heq
      · exact .inr ⟨hlength, hwithin⟩
  | case2 v hshort =>
    refine ⟨nofun, ?_⟩
    rintro ⟨hlength, hwithin⟩
    have hle := hwithin.length_le
    rw [hlength] at hle
    match v, hle with
    | a :: b :: c :: rest, _ => exact (hshort a b c rest rfl).elim

/-- A text within a text has its windows. -/
theorem windows3_subset {u v : Bytes} (h : u <:+: v) : windows3 u ⊆ windows3 v := by
  intro w hw
  obtain ⟨hlength, hwithin⟩ := mem_windows3.mp hw
  exact mem_windows3.mpr ⟨hlength, hwithin.trans h⟩

/-! ## Draining a word -/

/-- `bits & (bits - 1)` clears the lowest set bit. -/
theorem getLsbD_clear_lowest {bits : BitVec 64} (h : bits ≠ 0#64) (i : Nat) :
    (bits &&& (bits - 1#64)).getLsbD i = (bits.getLsbD i && decide (i ≠ bits.ctz.toNat)) := by
  have hone := BitVec.getLsbD_true_ctz_of_ne_zero h
  have hzero : ∀ j < bits.ctz.toNat, bits.getLsbD j = false := fun j hj => BitVec.getLsbD_false_of_lt_ctz hj
  generalize bits.ctz.toNat = t at hone hzero ⊢
  have hdvd : bits.toNat % 2 ^ t = 0 := by
    refine Nat.eq_of_testBit_eq fun j => ?_
    rw [Nat.testBit_mod_two_pow, Nat.zero_testBit]
    by_cases hj : j < t
    · have htest : bits.toNat.testBit j = false := hzero j hj
      simp [htest]
    · simp [hj]
  -- the word is an odd multiple of `2 ^ t`
  obtain ⟨half, hword⟩ : ∃ half, bits.toNat = 2 ^ t * (2 * half + 1) := by
    have hodd : bits.toNat / 2 ^ t % 2 = 1 := by
      have htest : bits.toNat.testBit t = true := hone
      rwa [Nat.testBit_eq_decide_div_mod_eq, decide_eq_true_eq] at htest
    refine ⟨bits.toNat / 2 ^ t / 2, ?_⟩
    rw [(by omega : 2 * (bits.toNat / 2 ^ t / 2) + 1 = bits.toNat / 2 ^ t), Nat.mul_div_cancel'
      (Nat.dvd_of_mod_eq_zero hdvd)]
  have hpos : 0 < 2 ^ t := by positivity
  have hless : (bits - 1#64).toNat = 2 ^ t * (2 * half) + (2 ^ t - 1) := by
    have hlt := bits.isLt
    have hge : 2 ^ t ≤ bits.toNat := by rw [hword]; exact Nat.le_mul_of_pos_right _ (by omega)
    rw [BitVec.toNat_sub_of_le (by rw [BitVec.le_def]; simp; omega), hword, Nat.mul_add]
    simp
    omega
  rw [BitVec.getLsbD_and]
  show (bits.toNat.testBit i && (bits - 1#64).toNat.testBit i) = (bits.toNat.testBit i && _)
  rw [hless, hword, Nat.testBit_two_pow_mul_add _ (by omega), Nat.testBit_two_pow_mul]
  rcases Nat.lt_trichotomy i t with hlt | rfl | hgt
  · simp [Nat.not_le.mpr hlt]
  · simp [Nat.testBit_zero]
  · obtain ⟨n, rfl⟩ : ∃ n, i = t + (n + 1) := ⟨i - t - 1, by omega⟩
    have hhalf : (2 * half + 1) / 2 = half := by omega
    simp [Nat.testBit_succ, hhalf]

theorem mem_drain (fuel : Nat) : ∀ {bits : BitVec 64}, (∀ i < 64 - fuel, bits.getLsbD i = false) → ∀ position,
    position ∈ drain fuel bits ↔ bits.getLsbD position = true := by
  induction fuel with
  | zero =>
    intro bits h position
    have hzero : bits.getLsbD position = false := by
      rcases Nat.lt_or_ge position 64 with hlt | hge
      · exact h position hlt
      · exact BitVec.getLsbD_of_ge bits position hge
    simp [drain, hzero]
  | succ fuel ih =>
    intro bits h position
    rw [drain]
    split
    next hbits =>
      subst hbits
      simp
    next hbits =>
      have hlow : 64 - (fuel + 1) ≤ bits.ctz.toNat := by
        by_contra hlt
        have hone := BitVec.getLsbD_true_ctz_of_ne_zero hbits
        rw [h _ (by omega)] at hone
        cases hone
      rw [List.mem_cons, ih, getLsbD_clear_lowest hbits]
      · by_cases heq : position = bits.ctz.toNat
        · subst heq
          simp [BitVec.getLsbD_true_ctz_of_ne_zero hbits]
        · simp [heq]
      · intro i hi
        rw [getLsbD_clear_lowest hbits, Bool.and_eq_false_iff, decide_eq_false_iff_not, not_not]
        rcases Nat.lt_or_ge i bits.ctz.toNat with hlt | hge
        · exact .inl (BitVec.getLsbD_false_of_lt_ctz hlt)
        · exact .inr (by omega)

/-! ## The bitmap -/

theorem trigramIndex_eq (a b c : UInt8) : trigramIndex [a, b, c] = a.toNat * 65536 + b.toNat * 256 + c.toNat := by
  have hb : b.toNat <<< 8 < 2 ^ 16 := by
    have := b.toNat_lt
    rw [Nat.shiftLeft_eq]
    omega
  have hc : c.toNat < 2 ^ 8 := c.toNat_lt
  have hshift : a.toNat <<< 16 + b.toNat <<< 8 = (a.toNat * 256 + b.toNat) <<< 8 := by
    simp only [Nat.shiftLeft_eq]
    ring
  show a.toNat <<< 16 ||| b.toNat <<< 8 ||| c.toNat = _
  rw [← Nat.shiftLeft_add_eq_or_of_lt hb, hshift, ← Nat.shiftLeft_add_eq_or_of_lt hc, Nat.shiftLeft_eq]
  ring

/-- A window is a trigram of the domain, and its index is its own. -/
theorem trigramIndex_window {w : Bytes} (h : w.length = 3) : trigramIndex w < 2 ^ 24 ∧ trigramOf
    (trigramIndex w) = w := by
  obtain ⟨a, b, c, rfl⟩ := List.length_eq_three.mp h
  have ha := a.toNat_lt
  have hb := b.toNat_lt
  have hc := c.toNat_lt
  rw [trigramIndex_eq, trigramOf]
  refine ⟨by omega, ?_⟩
  have hbyte (x : UInt8) (n : Nat) (hn : n % 256 = x.toNat) : UInt8.ofNat n = x := by
    rw [← UInt8.toNat_inj, UInt8.toNat_ofNat']
    exact hn
  simp only [Nat.shiftRight_eq_div_pow]
  rw [hbyte a _ (by omega), hbyte b _ (by omega), hbyte c _ (by omega)]

namespace TrigramSet

/-- Whether a trigram's bit is set. -/
def has (set : TrigramSet) (index : Nat) : Bool := (set.words (index / 64)).getLsbD (index % 64)

/-- A single bit. -/
theorem getLsbD_bit {i : Nat} (hi : i < 64) (j : Nat) : (1#64 <<< i).getLsbD j = decide (j = i) := by
  rw [BitVec.getLsbD_shiftLeft, BitVec.getLsbD_one]
  by_cases hji : j = i
  · subst hji
    simp [hi]
  · rw [decide_eq_false hji]
    rcases Nat.lt_or_ge j i with hlt | hge
    · simp [hlt]
    · simp only [Bool.and_eq_false_iff, decide_eq_false_iff_not]
      omega

theorem and_bit_eq_zero_iff (word : BitVec 64) {i : Nat} (hi : i < 64) :
    word &&& 1#64 <<< i = 0#64 ↔ word.getLsbD i = false := by
  constructor
  · intro h
    have hbit := congrArg (BitVec.getLsbD · i) h
    simpa [getLsbD_bit hi] using hbit
  · intro h
    refine BitVec.eq_of_getLsbD_eq fun j _ => ?_
    rw [BitVec.getLsbD_and, getLsbD_bit hi]
    by_cases hji : j = i
    · subst hji
      simp [h]
    · simp [hji]

theorem addTrigram_eq (set : TrigramSet) (w : Bytes) : set.addTrigram w =
    if set.has (trigramIndex w) = true then set
    else { words := Function.update set.words (trigramIndex w / 64)
             (set.words (trigramIndex w / 64) ||| 1#64 <<< (trigramIndex w % 64))
           len := set.len + 1 } := by
  have hlow : trigramIndex w &&& 63 = trigramIndex w % 64 := Nat.and_two_pow_sub_one_eq_mod _ 6
  have hhigh : trigramIndex w >>> 6 = trigramIndex w / 64 := Nat.shiftRight_eq_div_pow _ 6
  have hbit := and_bit_eq_zero_iff (set.words (trigramIndex w / 64)) (Nat.mod_lt (trigramIndex w) (by decide : 0 < 64))
  rw [addTrigram, hlow, hhigh]
  cases hset : set.has (trigramIndex w) with
  | false => rw [if_pos (hbit.mpr hset), if_neg (by decide)]
  | true => rw [if_neg (mt hbit.mp (ne_false_of_eq_true hset)), if_pos rfl]

theorem has_addTrigram (set : TrigramSet) (w : Bytes) (j : Nat) :
    (set.addTrigram w).has j = true ↔ j = trigramIndex w ∨ set.has j = true := by
  have hlt : trigramIndex w % 64 < 64 := Nat.mod_lt _ (by decide)
  rw [addTrigram_eq]
  split
  next hset =>
    refine ⟨.inr, ?_⟩
    rintro (rfl | h)
    · exact hset
    · exact h
  next hclear =>
    rw [has, has]
    dsimp only
    rw [Function.update_apply]
    by_cases hword : j / 64 = trigramIndex w / 64
    · have hsame : j = trigramIndex w ↔ j % 64 = trigramIndex w % 64 := by omega
      rw [if_pos hword, BitVec.getLsbD_or, getLsbD_bit hlt, hsame, hword]
      simp [or_comm]
    · have hne : j ≠ trigramIndex w := fun h => hword (by rw [h])
      rw [if_neg hword]
      simp [hne]

/-- The length is the number of trigrams set. -/
def Counts (set : TrigramSet) : Prop := set.len = ((Finset.range (2 ^ 24)).filter fun i => set.has i = true).card

theorem Counts.le {set : TrigramSet} (h : set.Counts) : set.len ≤ 2 ^ 24 := by
  have hle := Finset.card_filter_le (Finset.range (2 ^ 24)) fun i => set.has i = true
  rw [Finset.card_range] at hle
  exact h ▸ hle

theorem Counts.addTrigram {set : TrigramSet} (h : set.Counts) {w : Bytes} (hw : w.length = 3) :
    (set.addTrigram w).Counts := by
  have hsplit : ((Finset.range (2 ^ 24)).filter fun i => (set.addTrigram w).has i = true) =
      insert (trigramIndex w) ((Finset.range (2 ^ 24)).filter fun i => set.has i = true) := by
    ext i
    have hlt := (trigramIndex_window hw).1
    simp only [Finset.mem_filter, Finset.mem_insert, Finset.mem_range, has_addTrigram]
    constructor
    · rintro ⟨hi, rfl | hset⟩
      · exact .inl rfl
      · exact .inr ⟨hi, hset⟩
    · rintro (rfl | ⟨hi, hset⟩)
      · exact ⟨hlt, .inl rfl⟩
      · exact ⟨hi, .inr hset⟩
  rw [Counts, hsplit, addTrigram_eq]
  split
  next hset =>
    rw [Finset.insert_eq_of_mem (Finset.mem_filter.mpr ⟨Finset.mem_range.mpr (trigramIndex_window hw).1, hset⟩)]
    exact h
  next hclear =>
    have hnew : trigramIndex w ∉ (Finset.range (2 ^ 24)).filter fun i => set.has i = true :=
      fun hmem => hclear (Finset.mem_filter.mp hmem).2
    rw [Finset.card_insert_of_notMem hnew]
    exact congrArg (· + 1) h

/-- The bitmap after some windows. -/
theorem foldl_addTrigram (windows : List Bytes) : ∀ {set : TrigramSet}, set.Counts → (∀ w ∈ windows, w.length = 3) →
    (windows.foldl addTrigram set).Counts ∧
      ∀ j, (windows.foldl addTrigram set).has j = true ↔ (∃ w ∈ windows, j = trigramIndex w) ∨ set.has j = true := by
  induction windows with
  | nil => exact fun h _ => ⟨h, by simp⟩
  | cons w windows ih =>
    intro set h hwindows
    obtain ⟨hw, hrest⟩ := List.forall_mem_cons.mp hwindows
    obtain ⟨hcounts, hhas⟩ := ih (h.addTrigram hw) hrest
    refine ⟨hcounts, fun j => ?_⟩
    rw [List.foldl_cons, hhas, has_addTrigram]
    simp only [List.mem_cons, exists_eq_or_imp]
    exact or_assoc.symm.trans (or_congr_left or_comm)

/-- The bitmap after some lines. -/
theorem foldl_addLine (T : CaseTables) (lines : List Text) : ∀ {set : TrigramSet}, set.Counts →
    (lines.foldl (addLine T) set).Counts ∧
      ∀ j, (lines.foldl (addLine T) set).has j = true ↔
        (∃ line ∈ lines, ∃ w ∈ windows3 (lowercaseInto T line), j = trigramIndex w) ∨ set.has j = true := by
  induction lines with
  | nil => exact fun h => ⟨h, by simp⟩
  | cons line lines ih =>
    intro set h
    obtain ⟨hcounts, hhas⟩ := foldl_addTrigram (windows3 (lowercaseInto T line)) h fun w hw => (mem_windows3.mp hw).1
    obtain ⟨hcounts', hhas'⟩ := ih hcounts
    refine ⟨hcounts', fun j => ?_⟩
    rw [List.foldl_cons]
    refine (hhas' j).trans ?_
    rw [hhas]
    simp only [List.mem_cons, exists_eq_or_imp]
    exact or_assoc.symm.trans (or_congr_left or_comm)

theorem counts_new : ({} : TrigramSet).Counts := by
  have hempty : ∀ i, ({} : TrigramSet).has i = false := fun i => BitVec.getLsbD_zero
  rw [Counts, Finset.filter_false_of_mem fun i _ => by rw [hempty i]; decide]
  rfl

theorem mem_items {set : TrigramSet} {t : Bytes} :
    t ∈ set.items ↔ ∃ index < 2 ^ 24, set.has index = true ∧ t = trigramOf index := by
  have hjoin (word : Nat) {position : Nat} (h : position < 64) : word <<< 6 ||| position = word * 64 + position := by
    rw [← Nat.shiftLeft_add_eq_or_of_lt (i := 6) h, Nat.shiftLeft_eq]
  simp only [items, List.mem_flatMap, List.mem_range, List.mem_map, trigramWords]
  constructor
  · rintro ⟨word, hword, position, hposition, rfl⟩
    have hset := (mem_drain 64 (by simp) position).mp hposition
    have hlt := BitVec.lt_of_getLsbD hset
    refine ⟨word * 64 + position, by omega, ?_, by rw [hjoin word hlt]⟩
    rw [has, (by omega : (word * 64 + position) / 64 = word), (by omega : (word * 64 + position) % 64 = position)]
    exact hset
  · rintro ⟨index, hindex, hset, rfl⟩
    have hlt : index % 64 < 64 := Nat.mod_lt _ (by decide)
    refine ⟨index / 64, by omega, index % 64, (mem_drain 64 (by simp) _).mpr hset, ?_⟩
    rw [hjoin _ hlt]
    congr 1
    omega

end TrigramSet

/-! ## Lowercasing -/

theorem utf8_ascii {c : Char} (h : c.toNat < 128) :
    (String.utf8EncodeChar c).map asciiLower = String.utf8EncodeChar c.toLower := by
  have hall : ∀ n < 128, (String.utf8EncodeChar (Char.ofNat n)).map asciiLower =
      String.utf8EncodeChar (Char.ofNat n).toLower := by decide +kernel
  have hc := hall c.toNat h
  rwa [Char.ofNat_toNat] at hc

/-- Lines are lowercased scalar by scalar, on either path. -/
theorem lowercaseInto_eq (T : CaseTables) (s : Text) : lowercaseInto T s = utf8 (s.flatMap T.lower) := by
  rw [lowercaseInto]
  split
  next hascii =>
    induction s with
    | nil => rfl
    | cons c s ih =>
      rw [List.all_cons, Bool.and_eq_true, decide_eq_true_eq] at hascii
      have htail := ih hascii.2
      simp only [utf8, List.flatMap_cons, List.map_append, List.flatMap_append] at htail ⊢
      rw [htail, utf8_ascii hascii.1, T.lower_ascii c hascii.1]
      simp
  next => rfl

/-! ## Line filters -/

theorem mem_items_lines (T : CaseTables) (lines : List Text) (t : Bytes) :
    t ∈ (lines.foldl (TrigramSet.addLine T) {}).items ↔ ∃ line ∈ lines, t ∈ windows3 (lowercaseInto T line) := by
  have hhas := (TrigramSet.foldl_addLine T lines TrigramSet.counts_new).2
  have hempty : ∀ i, ({} : TrigramSet).has i = false := fun i => BitVec.getLsbD_zero
  rw [TrigramSet.mem_items]
  constructor
  · rintro ⟨index, -, hset, rfl⟩
    rcases (hhas index).mp hset with ⟨line, hline, w, hw, rfl⟩ | hset
    · rw [(trigramIndex_window (mem_windows3.mp hw).1).2]
      exact ⟨line, hline, hw⟩
    · rw [hempty] at hset
      cases hset
  · rintro ⟨line, hline, hw⟩
    obtain ⟨hlt, hback⟩ := trigramIndex_window (mem_windows3.mp hw).1
    exact ⟨trigramIndex t, hlt, (hhas _).mpr (.inl ⟨line, hline, t, hw, rfl⟩), hback.symm⟩

section Filter

variable (T : CaseTables) (S : Sizing) {hash : Bytes → UInt64 × UInt64}

/-- The filter of some lines is stored and read back. -/
theorem decode_encode_lineBloom (lines : List Text) :
    BloomFilter.decode (lineBloom T S hash lines).encode = .ok (lineBloom T S hash lines) := by
  have hcounts := (TrigramSet.foldl_addLine T lines TrigramSet.counts_new).1
  refine BloomFilter.decode_encode _ ?_
  rw [lineBloom, TrigramSet.finish, (BloomFilter.size_foldl_insert _ _).1]
  exact S.bits_lt _ (max_le hcounts.le (by decide))

theorem mightContainSubstr_iff (b : BloomFilter) (needle : Text) :
    mightContainSubstr T hash b needle = true ↔ ∀ t ∈ trigrams T needle, b.contains hash t = true := by
  rw [mightContainSubstr]
  split
  next hempty =>
    rw [List.isEmpty_iff.mp hempty]
    simp
  next => exact List.all_eq_true

theorem contains_lineBloom_of_mem {lines : List Text} {line : Text} (hline : line ∈ lines) {t : Bytes}
    (ht : t ∈ windows3 (lowercaseInto T line)) : (lineBloom T S hash lines).contains hash t = true :=
  BloomFilter.contains_of_mem ((mem_items_lines T lines t).mpr ⟨line, hline, ht⟩)

/-- What the filter of some lines answers: whether the bits of their trigrams cover the bits asked for. -/
theorem contains_lineBloom_iff (lines : List Text) (t : Bytes) : ∃ n,
    (lineBloom T S hash lines).contains hash t = true ↔
      ∀ j ∈ BloomFilter.positions hash (S.bits n) (S.k n) t, ∃ line ∈ lines, ∃ w ∈ windows3 (lowercaseInto T line),
        j ∈ BloomFilter.positions hash (S.bits n) (S.k n) w := by
  refine ⟨max (lines.foldl (TrigramSet.addLine T) {}).len 1, ?_⟩
  have hempty : ∀ n j, bitSet (withCapacity S n).bits j = false := fun n j => BloomFilter.bitSet_new j
  rw [lineBloom, TrigramSet.finish, BloomFilter.contains_foldl_insert (hempty _)]
  refine forall₂_congr fun j _ => ?_
  simp only [mem_items_lines]
  exact ⟨fun ⟨w, ⟨line, hline, hw⟩, hj⟩ => ⟨line, hline, w, hw, hj⟩,
    fun ⟨line, hline, w, hw, hj⟩ => ⟨w, ⟨line, hline, hw⟩, hj⟩⟩

end Filter

/-- A needle occurs in a line, up to case: its scalars, lowercased, within those of the line. -/
def Occurs (T : CaseTables) (needle line : Text) : Prop := needle.flatMap T.lower <:+: line.flatMap T.lower

/-- The trigrams a needle is looked up by are those its scalars give, lowercased one by one. -/
def SigmaSafe (T : CaseTables) (needle : Text) : Prop :=
  ∀ t ∈ trigrams T needle, t ∈ windows3 (lowercaseInto T needle)

theorem occurs_windows {T : CaseTables} {needle line : Text} (h : Occurs T needle line) :
    windows3 (lowercaseInto T needle) ⊆ windows3 (lowercaseInto T line) := by
  rw [lowercaseInto_eq, lowercaseInto_eq]
  exact windows3_subset (List.IsInfix.flatMap h _)

/-- A pair of hashes under which nothing collides with `t`. -/
def apartFrom (t : Bytes) : Bytes → UInt64 × UInt64 := fun data => if data = t then (1, 0) else (0, 0)

theorem not_contains_apart (T : CaseTables) (S : Sizing) {lines : List Text} {t : Bytes}
    (ht : ∀ line ∈ lines, t ∉ windows3 (lowercaseInto T line)) :
    (lineBloom T S (apartFrom t) lines).contains (apartFrom t) t = false := by
  obtain ⟨n, hanswer⟩ := @contains_lineBloom_iff T S (apartFrom t) lines t
  rw [← Bool.not_eq_true, hanswer]
  intro h
  have hpos := S.bits_pos n
  have hmod := S.bits_mod n
  have hone : 1 % S.bits n = 1 := Nat.mod_eq_of_lt (by omega)
  have hmem : 1 ∈ BloomFilter.positions (apartFrom t) (S.bits n) (S.k n) t := by
    refine List.mem_map.mpr ⟨0, List.mem_range.mpr (S.k_pos n), ?_⟩
    rw [apartFrom, if_pos rfl]
    exact hone
  obtain ⟨line, hline, w, hw, hposition⟩ := h 1 hmem
  obtain ⟨i, -, hi⟩ := List.mem_map.mp hposition
  have hne : w ≠ t := fun heq => ht line hline (heq ▸ hw)
  rw [apartFrom, if_neg hne] at hi
  simp [doubleHash] at hi

/-- **Pruning by trigrams.** A needle is found in the filter of any lines one of which it occurs in, in memory and read
back, whatever the hashes, exactly when its own lowercasing adds no trigram to those of its scalars. -/
theorem pruning_iff (T : CaseTables) (S : Sizing) (needle : Text) :
    (∀ (hash : Bytes → UInt64 × UInt64) (lines : List Text), (∃ line ∈ lines, Occurs T needle line) →
      mightContainSubstr T hash (lineBloom T S hash lines) needle = true ∧
        ∃ b, BloomFilter.decode (lineBloom T S hash lines).encode = .ok b ∧ mightContainSubstr T hash b needle = true) ↔
    SigmaSafe T needle := by
  constructor
  · intro h t ht
    by_contra hnot
    obtain ⟨hfound, -⟩ := h (apartFrom t) [needle] ⟨needle, List.mem_singleton_self _, List.infix_rfl⟩
    have hcontains := (mightContainSubstr_iff T _ needle).mp hfound t ht
    rw [not_contains_apart T S (by simpa using hnot)] at hcontains
    cases hcontains
  · rintro hsafe hash lines ⟨line, hline, hoccurs⟩
    have hfound : mightContainSubstr T hash (lineBloom T S hash lines) needle = true :=
      (mightContainSubstr_iff T _ needle).mpr fun t ht =>
        contains_lineBloom_of_mem T S hline (occurs_windows hoccurs (hsafe t ht))
    exact ⟨hfound, _, decode_encode_lineBloom T S lines, hfound⟩

/-- Tables that know ASCII and two capital letters of the Greek alphabet. -/
def greekTables : CaseTables where
  lower c := if c = capitalSigma then [smallSigma] else if c = Char.ofNat 0x391 then [Char.ofNat 0x3B1] else [c.toLower]
  cased c := c.isAlpha || c = capitalSigma || c = Char.ofNat 0x391
  caseIgnorable _ := false
  lower_ascii c h := by
    have hsigma : c ≠ capitalSigma := by rintro rfl; exact absurd h (by decide)
    have halpha : c ≠ Char.ofNat 0x391 := by rintro rfl; exact absurd h (by decide)
    rw [if_neg hsigma, if_neg halpha]
  lower_sigma := rfl

/-- The size the code gives a filter of up to 44 trigrams. -/
def smallSizing : Sizing where
  bits _ := 1024
  k _ := 16
  bits_pos _ := by decide
  bits_mod _ := by decide
  bits_lt _ _ := by decide
  k_pos _ := by decide
  k_le _ := le_rfl

/-- Capital alpha and sigma. -/
def sigmaLine : Text := [Char.ofNat 0x391, capitalSigma]

/-- The line filter, with the code's hashes, denies a line's own text. -/
theorem sigma_line_pruned : Occurs greekTables sigmaLine sigmaLine ∧
    mightContainSubstr greekTables hashPair (lineBloom greekTables smallSizing hashPair [sigmaLine])
      sigmaLine = false := by
  refine ⟨List.infix_rfl, ?_⟩
  have hlookup : [0xB1, 0xCF, 0x82] ∈ trigrams greekTables sigmaLine := by decide +kernel
  rw [← Bool.not_eq_true, mightContainSubstr_iff]
  intro h
  obtain ⟨n, hanswer⟩ := @contains_lineBloom_iff greekTables smallSizing hashPair [sigmaLine] [0xB1, 0xCF, 0x82]
  have hcovered := hanswer.mp (h _ hlookup)
  revert hcovered
  show ¬∀ j ∈ BloomFilter.positions hashPair 1024 16 [0xB1, 0xCF, 0x82], ∃ line ∈ [sigmaLine],
    ∃ w ∈ windows3 (lowercaseInto greekTables line), j ∈ BloomFilter.positions hashPair 1024 16 w
  decide +kernel

end Signy
