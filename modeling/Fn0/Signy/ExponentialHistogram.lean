/-
OTLP exponential histograms as histogram points (signy/src/series_ingest.rs, `exponential_histogram_point`).

Bucket indices are merged by an arithmetic shift until few enough are left, and the counts are accumulated over the
merged indices in order. The value of a boundary, `2f64.powf((index + 1) as f64 * 2f64.powi(-scale))`, is a parameter:
floats are their bit patterns throughout. Integer arithmetic is that of a release build, where it wraps.
-/
import Mathlib

namespace Signy

/-- One histogram observation: cumulative counts at finite upper bounds, floats as bit patterns. -/
structure HistogramPoint where
  bounds : List UInt64
  cumulative : List UInt64
  sum : Option UInt64
  count : UInt64
deriving DecidableEq, Repr

namespace ExponentialHistogram

/-- `exponential_histogram_data_point::Buckets`: the offset is an `i32`, and a `Vec<u64>` has fewer than `2 ^ 60`
elements. -/
structure Buckets where
  offset : Int
  bucketCounts : List UInt64
  offset_range : -2 ^ 31 ≤ offset ∧ offset < 2 ^ 31
  length_lt : bucketCounts.length < 2 ^ 60

structure DataPoint where
  scale : Int
  zeroCount : UInt64
  positive : Option Buckets
  negative : Option Buckets
  sum : Option UInt64
  count : UInt64

def maxExpHistogramBuckets : Nat := 64

def saturatingAdd (a b : UInt64) : UInt64 := if a.toNat + b.toNat < 2 ^ 64 then a + b else 0xFFFFFFFFFFFFFFFF

/-- The buckets of one half, with their indices. -/
def indexed : Option Buckets → List (Int × UInt64)
  | none => []
  | some buckets => buckets.bucketCounts.zipIdx.map fun p => (buckets.offset + p.2, p.1)

/-- The buckets that hold anything. -/
def populated (buckets : Option Buckets) : List (Int × UInt64) := (indexed buckets).filter fun p => 0 < p.2

/-- `*merged.entry(index).or_default() += count` on a map that is its entries in order. -/
def bump (index : Int) (count : UInt64) : List (Int × UInt64) → List (Int × UInt64)
  | [] => [(index, 0 + count)]
  | (i, c) :: rest =>
    if index < i then (index, 0 + count) :: (i, c) :: rest
    else if i = index then (i, c + count) :: rest
    else (i, c) :: bump index count rest

def merge (downscale : Nat) (positive : List (Int × UInt64)) : List (Int × UInt64) :=
  positive.foldl (fun merged (p : Int × UInt64) => bump (p.1 >>> downscale) p.2 merged) []

/-- The running totals over the merged buckets. -/
def accumulate : UInt64 → List (Int × UInt64) → List UInt64
  | _, [] => []
  | running, (_, count) :: rest => saturatingAdd running count :: accumulate (saturatingAdd running count) rest

/-- An index range is within the cap at a resolution. -/
def Fits (minIndex maxIndex : Int) (downscale : Nat) : Prop :=
  maxIndex >>> downscale - minIndex >>> downscale + 1 ≤ maxExpHistogramBuckets

instance (minIndex maxIndex : Int) (downscale : Nat) : Decidable (Fits minIndex maxIndex downscale) :=
  inferInstanceAs (Decidable (_ ≤ _))

/-- The loop that looks for the downscale. A shift of an `i64` is by fewer than 64 places. -/
def downscaleLoop (minIndex maxIndex : Int) : Nat → Nat → Nat
  | 0, downscale => downscale
  | fuel + 1, downscale =>
    if Fits minIndex maxIndex downscale then downscale else downscaleLoop minIndex maxIndex fuel (downscale + 1)

def minIndex (first : Int × UInt64) (rest : List (Int × UInt64)) : Int := rest.foldl (fun m p => min m p.1) first.1
def maxIndex (first : Int × UInt64) (rest : List (Int × UInt64)) : Int := rest.foldl (fun m p => max m p.1) first.1

def downscaleOf (first : Int × UInt64) (rest : List (Int × UInt64)) : Nat :=
  downscaleLoop (minIndex first rest) (maxIndex first rest) 64 0

/-- `exponential_histogram_point`; `upperBound index scale` is the boundary above a bucket. -/
def exponentialHistogramPoint (upperBound : Int → Int → UInt64) (point : DataPoint) : HistogramPoint :=
  let negativeTotal := ((indexed point.negative).map Prod.snd).sum
  let belowSmallest := saturatingAdd point.zeroCount negativeTotal
  match populated point.positive with
  | [] => { bounds := [], cumulative := [], sum := point.sum, count := point.count }
  | first :: rest =>
    let downscale := downscaleOf first rest
    let scale := (point.scale - downscale).bmod (2 ^ 32)
    let merged := merge downscale (first :: rest)
    { bounds := merged.map fun p => upperBound p.1 scale
      cumulative := accumulate belowSmallest merged
      sum := point.sum
      count := point.count }

/-! ## Mass -/

/-- The counts of some buckets, without overflow. -/
def mass (buckets : List (Int × UInt64)) : Nat := (buckets.map fun p => p.2.toNat).sum

/-- The counts up to an index. -/
def massUpTo (j : Int) (buckets : List (Int × UInt64)) : Nat := mass (buckets.filter fun p => p.1 ≤ j)

@[simp] theorem mass_nil : mass [] = 0 := rfl

@[simp] theorem mass_cons (p : Int × UInt64) (buckets : List (Int × UInt64)) :
    mass (p :: buckets) = p.2.toNat + mass buckets := rfl

@[simp] theorem massUpTo_nil (j : Int) : massUpTo j [] = 0 := rfl

theorem massUpTo_cons (j : Int) (p : Int × UInt64) (buckets : List (Int × UInt64)) :
    massUpTo j (p :: buckets) = (if p.1 ≤ j then p.2.toNat else 0) + massUpTo j buckets := by
  unfold massUpTo
  by_cases h : p.1 ≤ j <;> simp [h]

theorem massUpTo_eq_zero {j : Int} {buckets : List (Int × UInt64)} (h : ∀ p ∈ buckets, j < p.1) :
    massUpTo j buckets = 0 := by
  unfold massUpTo
  rw [List.filter_eq_nil_iff.mpr fun p hp => by simpa using h p hp]
  rfl

/-- Empty buckets have no mass. -/
theorem mass_filter_pos (buckets : List (Int × UInt64)) :
    mass (buckets.filter fun p => 0 < p.2) = mass buckets := by
  induction buckets with
  | nil => rfl
  | cons p buckets ih =>
    by_cases hp : 0 < p.2
    · rw [List.filter_cons_of_pos (by simpa using hp), mass_cons, mass_cons, ih]
    · have hzero : p.2.toNat = 0 := by simpa [UInt64.lt_iff_toNat_lt] using hp
      rw [List.filter_cons_of_neg (by simpa using hp), mass_cons, ih, hzero, zero_add]

/-! ## Merging -/

theorem toNat_add_of_lt {a b : UInt64} (h : a.toNat + b.toNat < 2 ^ 64) : (a + b).toNat = a.toNat + b.toNat := by
  rw [UInt64.toNat_add, Nat.mod_eq_of_lt h]

theorem toNat_saturatingAdd {a b : UInt64} (h : a.toNat + b.toNat < 2 ^ 64) :
    (saturatingAdd a b).toNat = a.toNat + b.toNat := by
  rw [saturatingAdd, if_pos h, toNat_add_of_lt h]

theorem mem_keys_bump (index : Int) (count : UInt64) (merged : List (Int × UInt64)) (i : Int) :
    i ∈ (bump index count merged).map Prod.fst ↔ i = index ∨ i ∈ merged.map Prod.fst := by
  induction merged with
  | nil => simp [bump]
  | cons p merged ih =>
    obtain ⟨k, c⟩ := p
    rw [bump]
    split
    · simp
    · split
      next hk =>
        subst hk
        simp
      next => rw [List.map_cons, List.mem_cons, ih, List.map_cons, List.mem_cons]; tauto

theorem keys_sorted_bump (index : Int) (count : UInt64) {merged : List (Int × UInt64)}
    (h : (merged.map Prod.fst).Pairwise (· < ·)) : ((bump index count merged).map Prod.fst).Pairwise (· < ·) := by
  induction merged with
  | nil => simp [bump]
  | cons p merged ih =>
    obtain ⟨k, c⟩ := p
    obtain ⟨hk, hrest⟩ := List.pairwise_cons.mp h
    rw [bump]
    split
    next hlt =>
      refine List.pairwise_cons.mpr ⟨fun i hi => ?_, h⟩
      rcases List.mem_cons.mp hi with rfl | hi
      · exact hlt
      · exact hlt.trans (hk i hi)
    next hlt =>
      split
      · exact h
      next hne =>
        refine List.pairwise_cons.mpr ⟨fun i hi => ?_, ih hrest⟩
        rcases (mem_keys_bump index count merged i).mp hi with rfl | hi
        · exact lt_of_le_of_ne (not_lt.mp hlt) hne
        · exact hk i hi

/-- A count lands at its index, and nowhere else. -/
theorem massUpTo_bump (j index : Int) (count : UInt64) {merged : List (Int × UInt64)}
    (h : mass merged + count.toNat < 2 ^ 64) :
    massUpTo j (bump index count merged) = massUpTo j merged + (if index ≤ j then count.toNat else 0) := by
  induction merged with
  | nil => simp [bump, massUpTo_cons]
  | cons p merged ih =>
    obtain ⟨k, c⟩ := p
    rw [mass_cons] at h
    rw [bump]
    split
    · rw [massUpTo_cons, massUpTo_cons, zero_add, Nat.add_comm]
    · split
      next hk =>
        subst hk
        rw [massUpTo_cons, massUpTo_cons]
        dsimp only
        rw [toNat_add_of_lt (by dsimp only at h; omega)]
        split <;> omega
      next =>
        rw [massUpTo_cons, massUpTo_cons, ih (by omega)]
        omega

theorem mass_bump (index : Int) (count : UInt64) {merged : List (Int × UInt64)}
    (h : mass merged + count.toNat < 2 ^ 64) : mass (bump index count merged) = mass merged + count.toNat := by
  induction merged with
  | nil => simp [bump]
  | cons p merged ih =>
    obtain ⟨k, c⟩ := p
    rw [mass_cons] at h
    dsimp only at h
    rw [bump]
    split
    · simp only [mass_cons, zero_add]
      omega
    · split
      · simp only [mass_cons]
        rw [toNat_add_of_lt (by omega)]
        omega
      · simp only [mass_cons]
        rw [ih (by omega)]
        omega

/-- Buckets at a coarser resolution. -/
def coarsen (downscale : Nat) (buckets : List (Int × UInt64)) : List (Int × UInt64) :=
  buckets.map fun (p : Int × UInt64) => (p.1 >>> downscale, p.2)

theorem mass_coarsen (downscale : Nat) (buckets : List (Int × UInt64)) :
    mass (coarsen downscale buckets) = mass buckets := by
  simp [mass, coarsen, Function.comp_def]

theorem mem_keys_coarsen (downscale : Nat) (buckets : List (Int × UInt64)) (j : Int) :
    j ∈ (coarsen downscale buckets).map Prod.fst ↔ ∃ p ∈ buckets, p.1 >>> downscale = j := by
  simp [coarsen]

/-- A map of merged buckets: its indices in order are those of the buckets, and it has their counts up to every
index. -/
structure Merges (buckets merged : List (Int × UInt64)) : Prop where
  sorted : (merged.map Prod.fst).Pairwise (· < ·)
  keys : ∀ i, i ∈ merged.map Prod.fst ↔ i ∈ buckets.map Prod.fst
  mass_eq : mass merged = mass buckets
  upTo : ∀ j, massUpTo j merged = massUpTo j buckets

theorem mass_append (front back : List (Int × UInt64)) : mass (front ++ back) = mass front + mass back := by
  simp [mass]

theorem massUpTo_append (j : Int) (front back : List (Int × UInt64)) :
    massUpTo j (front ++ back) = massUpTo j front + massUpTo j back := by
  simp [massUpTo, mass_append]

theorem Merges.bump {buckets merged : List (Int × UInt64)} (h : Merges buckets merged) (p : Int × UInt64)
    (hmass : mass (buckets ++ [p]) < 2 ^ 64) : Merges (buckets ++ [p]) (bump p.1 p.2 merged) := by
  have hfits : mass merged + p.2.toNat < 2 ^ 64 := by
    rw [h.mass_eq]
    simpa [mass_append] using hmass
  refine ⟨keys_sorted_bump _ _ h.sorted, fun i => ?_, ?_, fun j => ?_⟩
  · rw [mem_keys_bump, h.keys, List.map_append, List.mem_append]
    simp [or_comm]
  · rw [mass_bump _ _ hfits, h.mass_eq, mass_append]
    simp
  · rw [massUpTo_bump _ _ _ hfits, h.upTo, massUpTo_append, massUpTo_cons]
    simp

theorem Merges.foldl {rest : List (Int × UInt64)} : ∀ {buckets merged : List (Int × UInt64)}, Merges buckets merged →
    mass (buckets ++ rest) < 2 ^ 64 →
    Merges (buckets ++ rest) (rest.foldl (fun merged p => ExponentialHistogram.bump p.1 p.2 merged) merged) := by
  induction rest with
  | nil =>
    intro buckets merged h _
    simpa using h
  | cons p rest ih =>
    intro buckets merged h hmass
    rw [List.append_cons] at hmass ⊢
    refine ih (h.bump p ?_) hmass
    simp only [mass_append, mass_cons, mass_nil] at hmass ⊢
    omega

theorem merge_merges (downscale : Nat) (positive : List (Int × UInt64)) (hmass : mass positive < 2 ^ 64) :
    Merges (coarsen downscale positive) (merge downscale positive) := by
  have hnil : Merges [] [] := ⟨List.Pairwise.nil, fun _ => Iff.rfl, rfl, fun _ => rfl⟩
  have h := @Merges.foldl (coarsen downscale positive) [] [] hnil (by simpa [mass_coarsen] using hmass)
  simpa [merge, coarsen, List.foldl_map] using h

/-! ## Accumulating -/

/-- Every total is what is below its index, or at it. -/
theorem accumulate_upTo {merged : List (Int × UInt64)} : ∀ {running : UInt64},
    (merged.map Prod.fst).Pairwise (· < ·) → running.toNat + mass merged < 2 ^ 64 →
    List.Forall₂ (fun j total => total.toNat = running.toNat + massUpTo j merged) (merged.map Prod.fst)
      (accumulate running merged) := by
  induction merged with
  | nil => exact fun _ _ => List.Forall₂.nil
  | cons p merged ih =>
    intro running hsorted hmass
    obtain ⟨k, c⟩ := p
    obtain ⟨hk, hrest⟩ := List.pairwise_cons.mp hsorted
    rw [mass_cons] at hmass
    dsimp only at hmass
    have hadd := toNat_saturatingAdd (a := running) (b := c) (by omega)
    have hlt : ∀ p ∈ merged, k < p.1 := fun p hp => hk p.1 (List.mem_map_of_mem hp)
    rw [accumulate, List.map_cons]
    refine List.Forall₂.cons ?_ ?_
    · rw [hadd, massUpTo_cons, if_pos le_rfl, massUpTo_eq_zero hlt]
      rfl
    · have htail := @ih (saturatingAdd running c) hrest (by omega)
      refine (List.forall₂_iff_get.mpr ⟨htail.length_eq, fun i hi hi' => ?_⟩)
      have hget := (List.forall₂_iff_get.mp htail).2 i hi hi'
      have hbelow : k ≤ (merged.map Prod.fst).get ⟨i, hi⟩ := (hk _ (List.get_mem _ _)).le
      rw [hget, hadd, massUpTo_cons, if_pos hbelow, Nat.add_assoc]

/-! ## The downscale -/

/-- The loop stops at the first resolution that fits, if it is within reach. -/
theorem downscaleLoop_spec (lo hi : Int) : ∀ {fuel start d : Nat}, start ≤ d → d < start + fuel → Fits lo hi d →
    Fits lo hi (downscaleLoop lo hi fuel start) ∧
      ∀ coarser, start ≤ coarser → coarser < downscaleLoop lo hi fuel start → ¬Fits lo hi coarser := by
  intro fuel
  induction fuel with
  | zero =>
    intro start d hstart hd
    omega
  | succ fuel ih =>
    intro start d hstart hd hfits
    rw [downscaleLoop]
    split
    next h => exact ⟨h, fun coarser hge hlt => by omega⟩
    next h =>
      have hne : start ≠ d := fun heq => h (heq ▸ hfits)
      obtain ⟨hfound, hleast⟩ := @ih (start + 1) d (by omega) (by omega) hfits
      refine ⟨hfound, fun coarser hge hlt => ?_⟩
      rcases Nat.eq_or_lt_of_le hge with rfl | hgt
      · exact h
      · exact hleast coarser hgt hlt

/-- What an index can be: an `i32` offset and a place in a vector. -/
def InRange (i : Int) : Prop := -2 ^ 31 ≤ i ∧ i < 2 ^ 31 + 2 ^ 60

/-- Sixty places leave at most three indices. -/
theorem fits_sixty {lo hi : Int} (hlo : InRange lo) (hhi : InRange hi) : Fits lo hi 60 := by
  obtain ⟨hlo, -⟩ := hlo
  obtain ⟨-, hhi⟩ := hhi
  rw [Fits, Int.shiftRight_eq_div_pow, Int.shiftRight_eq_div_pow, maxExpHistogramBuckets]
  norm_num at hlo hhi ⊢
  omega

theorem inRange_of_mem_indexed {buckets : Option Buckets} {p : Int × UInt64} (hp : p ∈ indexed buckets) :
    InRange p.1 := by
  cases buckets with
  | none => cases hp
  | some buckets =>
    obtain ⟨⟨count, position⟩, hmem, rfl⟩ := List.mem_map.mp hp
    have hposition := (List.mem_zipIdx hmem).2.1
    have hlength := buckets.length_lt
    obtain ⟨hlow, hhigh⟩ := buckets.offset_range
    norm_num [InRange] at hlow hhigh hlength hposition ⊢
    omega

section Extremes

variable {op : Int → Int → Int} (first : Int) (rest : List (Int × UInt64))

theorem foldl_mem (hchoice : ∀ a b, op a b = a ∨ op a b = b) :
    rest.foldl (fun m p => op m p.1) first ∈ first :: rest.map Prod.fst := by
  induction rest generalizing first with
  | nil => exact List.mem_cons_self
  | cons p rest ih =>
    rw [List.foldl_cons, List.map_cons]
    have hmem := ih (op first p.1)
    rcases hchoice first p.1 with h | h <;> rw [h] at hmem ⊢ <;> simp only [List.mem_cons] at hmem ⊢ <;> tauto

theorem foldl_bounds {r : Int → Int → Prop} [Std.Refl r] [IsTrans Int r] (hleft : ∀ a b, r (op a b) a)
    (hright : ∀ a b, r (op a b) b) : ∀ i ∈ first :: rest.map Prod.fst,
      r (rest.foldl (fun m p => op m p.1) first) i := by
  induction rest generalizing first with
  | nil =>
    intro i hi
    obtain rfl := List.mem_singleton.mp hi
    exact refl_of r _
  | cons p rest ih =>
    intro i hi
    have hfold := ih (op first p.1)
    rcases List.mem_cons.mp hi with rfl | hi
    · exact trans_of r (hfold _ List.mem_cons_self) (hleft _ _)
    · rcases List.mem_cons.mp hi with rfl | hi
      · exact trans_of r (hfold _ List.mem_cons_self) (hright _ _)
      · exact hfold i (List.mem_cons_of_mem _ hi)

end Extremes

theorem exists_minIndex (first : Int × UInt64) (rest : List (Int × UInt64)) :
    ∃ p ∈ first :: rest, p.1 = minIndex first rest :=
  List.mem_map.mp (show _ ∈ (first :: rest).map Prod.fst from foldl_mem first.1 rest min_choice)

theorem exists_maxIndex (first : Int × UInt64) (rest : List (Int × UInt64)) :
    ∃ p ∈ first :: rest, p.1 = maxIndex first rest :=
  List.mem_map.mp (show _ ∈ (first :: rest).map Prod.fst from foldl_mem first.1 rest max_choice)

theorem minIndex_le {first p : Int × UInt64} {rest : List (Int × UInt64)} (hp : p ∈ first :: rest) :
    minIndex first rest ≤ p.1 :=
  foldl_bounds first.1 rest min_le_left min_le_right p.1 (List.mem_map_of_mem hp)

theorem le_maxIndex {first p : Int × UInt64} {rest : List (Int × UInt64)} (hp : p ∈ first :: rest) :
    p.1 ≤ maxIndex first rest :=
  foldl_bounds (r := (· ≥ ·)) first.1 rest le_max_left le_max_right p.1 (List.mem_map_of_mem hp)

/-- The resolution the loop settles on fits, and no finer one does. -/
theorem downscaleOf_spec {first : Int × UInt64} {rest : List (Int × UInt64)}
    (hrange : ∀ p ∈ first :: rest, InRange p.1) :
    Fits (minIndex first rest) (maxIndex first rest) (downscaleOf first rest) ∧
      ∀ finer < downscaleOf first rest, ¬Fits (minIndex first rest) (maxIndex first rest) finer := by
  obtain ⟨p, hp, hmin⟩ := exists_minIndex first rest
  obtain ⟨q, hq, hmax⟩ := exists_maxIndex first rest
  have hsixty := fits_sixty (hmin ▸ hrange p hp) (hmax ▸ hrange q hq)
  obtain ⟨hfits, hleast⟩ := downscaleLoop_spec _ _ (Nat.zero_le 60) (by norm_num : 60 < 0 + 64) hsixty
  exact ⟨hfits, fun finer hlt => hleast finer (Nat.zero_le _) hlt⟩

/-- Distinct indices within a fitting range are few. -/
theorem length_le_of_fits {lo hi : Int} {d : Nat} (h : Fits lo hi d) {js : List Int} (hsorted : js.Pairwise (· < ·))
    (hmem : ∀ j ∈ js, lo >>> d ≤ j ∧ j ≤ hi >>> d) : js.length ≤ maxExpHistogramBuckets := by
  have hnodup : js.Nodup := hsorted.imp fun h => h.ne
  have hsub : js.toFinset ⊆ Finset.Icc (lo >>> d) (hi >>> d) := fun j hj =>
    Finset.mem_Icc.mpr (hmem j (List.mem_toFinset.mp hj))
  have hcard := Finset.card_le_card hsub
  rw [List.toFinset_card_of_nodup hnodup, Int.card_Icc] at hcard
  rw [Fits] at h
  omega

theorem shiftRight_mono (d : Nat) {i j : Int} (h : i ≤ j) : i >>> d ≤ j >>> d := by
  rw [Int.shiftRight_eq_div_pow, Int.shiftRight_eq_div_pow]
  exact Int.ediv_le_ediv (by positivity) h

/-! ## The point -/

/-- All that a data point counts, over its zero bucket and both halves. -/
def DataPoint.mass (point : DataPoint) : Nat :=
  point.zeroCount.toNat + ExponentialHistogram.mass (indexed point.negative) +
    ExponentialHistogram.mass (indexed point.positive)

theorem toNat_sum_of_lt {buckets : List (Int × UInt64)} (h : mass buckets < 2 ^ 64) :
    (buckets.map Prod.snd).sum.toNat = mass buckets := by
  induction buckets with
  | nil => rfl
  | cons p buckets ih =>
    rw [mass_cons] at h
    have hrest := ih (by omega)
    rw [List.map_cons, List.sum_cons, mass_cons, toNat_add_of_lt (by omega), hrest]

/-- The buckets' indices span at most the cap at a resolution. -/
def Spans (buckets : List (Int × UInt64)) (d : Nat) : Prop :=
  ∀ p ∈ buckets, ∀ q ∈ buckets, q.1 / 2 ^ d - p.1 / 2 ^ d + 1 ≤ maxExpHistogramBuckets

theorem spans_iff_fits (first : Int × UInt64) (rest : List (Int × UInt64)) (d : Nat) :
    Spans (first :: rest) d ↔ Fits (minIndex first rest) (maxIndex first rest) d := by
  constructor
  · intro h
    obtain ⟨p, hp, hmin⟩ := exists_minIndex first rest
    obtain ⟨q, hq, hmax⟩ := exists_maxIndex first rest
    rw [Fits, Int.shiftRight_eq_div_pow, Int.shiftRight_eq_div_pow, ← hmin, ← hmax]
    exact_mod_cast h p hp q hq
  · intro h p hp q hq
    have hlow := shiftRight_mono d (minIndex_le hp)
    have hhigh := shiftRight_mono d (le_maxIndex hq)
    rw [Fits] at h
    simp only [Int.shiftRight_eq_div_pow] at h hlow hhigh
    push_cast at h hlow hhigh
    omega

/-- A histogram point is a data point at a resolution `d`, with its merged indices `js`. -/
structure DownscaledTo (upperBound : Int → Int → UInt64) (point : DataPoint) (d : Nat) (js : List Int)
    (r : HistogramPoint) : Prop where
  spans : Spans (populated point.positive) d
  least : ∀ finer < d, ¬Spans (populated point.positive) finer
  sorted : js.Pairwise (· < ·)
  indices : ∀ j, j ∈ js ↔ ∃ p ∈ populated point.positive, p.1 / 2 ^ d = j
  few : js.length ≤ maxExpHistogramBuckets
  bounds : r.bounds = js.map fun j => upperBound j ((point.scale - d).bmod (2 ^ 32))
  monotone : r.cumulative.Pairwise (· ≤ ·)
  exact : List.Forall₂ (fun j total => total.toNat = point.zeroCount.toNat + mass (indexed point.negative) +
    mass ((indexed point.positive).filter fun p => p.1 / 2 ^ d ≤ j)) js r.cumulative
  whole : ∀ total ∈ r.cumulative.getLast?, total.toNat = point.mass

theorem massUpTo_coarsen (d : Nat) (j : Int) (buckets : List (Int × UInt64)) :
    massUpTo j (coarsen d buckets) = mass (buckets.filter fun p => p.1 / 2 ^ d ≤ j) := by
  simp [massUpTo, coarsen, List.filter_map, mass, Function.comp_def, Int.shiftRight_eq_div_pow]

/-- Running totals only grow. -/
theorem accumulate_monotone {merged : List (Int × UInt64)} : ∀ {running : UInt64},
    running.toNat + mass merged < 2 ^ 64 → (running :: accumulate running merged).Pairwise (· ≤ ·) := by
  induction merged with
  | nil => exact fun _ => List.pairwise_singleton _ _
  | cons p merged ih =>
    intro running hmass
    rw [mass_cons] at hmass
    have hadd := toNat_saturatingAdd (a := running) (b := p.2) (by omega)
    have htail := @ih (saturatingAdd running p.2) (by omega)
    have hstep : running ≤ saturatingAdd running p.2 := by
      rw [UInt64.le_iff_toNat_le]
      omega
    refine List.pairwise_cons.mpr ⟨fun total htotal => ?_, htail⟩
    rcases List.mem_cons.mp htotal with rfl | htotal
    · exact hstep
    · exact UInt64.le_trans hstep ((List.pairwise_cons.mp htail).1 total htotal)

/-- The last total is all of it. -/
theorem getLast?_accumulate {merged : List (Int × UInt64)} : ∀ {running : UInt64},
    running.toNat + mass merged < 2 ^ 64 →
    ∀ total ∈ (running :: accumulate running merged).getLast?, total.toNat = running.toNat + mass merged := by
  induction merged with
  | nil => simp [accumulate]
  | cons p merged ih =>
    intro running hmass total htotal
    rw [mass_cons] at hmass
    have hadd := toNat_saturatingAdd (a := running) (b := p.2) (by omega)
    rw [accumulate, List.getLast?_cons_cons] at htotal
    rw [ih (by omega) total htotal, hadd, mass_cons]
    omega

/-- **Downscaling keeps the counts.** A data point whose counts fit a `u64` becomes a histogram point at the finest
resolution within the cap: it has a boundary for every merged index with something in it, its totals do not decrease,
and the total at a boundary is the zero bucket, the negative half and every positive bucket that merges up to it. -/
theorem exponentialHistogramPoint_downscales (upperBound : Int → Int → UInt64) (point : DataPoint)
    (hmass : point.mass < 2 ^ 64) :
    ∃ d js, DownscaledTo upperBound point d js (exponentialHistogramPoint upperBound point) := by
  have hpositive : mass (populated point.positive) = mass (indexed point.positive) := mass_filter_pos _
  rw [DataPoint.mass] at hmass
  have hnegative := @toNat_sum_of_lt (indexed point.negative) (by omega)
  have hbelow := toNat_saturatingAdd (a := point.zeroCount) (b := ((indexed point.negative).map Prod.snd).sum)
    (by omega)
  rw [hnegative] at hbelow
  rcases hcase : populated point.positive with _ | ⟨first, rest⟩
  · refine ⟨0, [], ?_⟩
    simp only [exponentialHistogramPoint, hcase]
    constructor <;> simp [hcase, Spans]
  · have hrange : ∀ p ∈ first :: rest, InRange p.1 := fun p hp =>
      inRange_of_mem_indexed (List.mem_filter.mp (hcase ▸ hp)).1
    obtain ⟨hfits, hleast⟩ := downscaleOf_spec hrange
    have hmerges := merge_merges (downscaleOf first rest) (first :: rest) (by rw [← hcase]; omega)
    have htotal : mass (merge (downscaleOf first rest) (first :: rest)) = mass (indexed point.positive) := by
      rw [hmerges.mass_eq, mass_coarsen, ← hcase, hpositive]
    refine ⟨downscaleOf first rest, (merge (downscaleOf first rest) (first :: rest)).map Prod.fst, ?_⟩
    simp only [exponentialHistogramPoint, hcase]
    refine
      { spans := hcase ▸ (spans_iff_fits first rest _).mpr hfits
        least := fun finer hlt => hcase ▸ mt (spans_iff_fits first rest finer).mp (hleast finer hlt)
        sorted := hmerges.sorted
        indices := fun j => ?_
        few := length_le_of_fits hfits hmerges.sorted fun j hj => ?_
        bounds := by simp [Function.comp_def]
        monotone := (List.pairwise_cons.mp (accumulate_monotone (by omega))).2
        exact := ?_
        whole := fun total hlast => ?_ }
    · simp [hmerges.keys, mem_keys_coarsen, hcase, Int.shiftRight_eq_div_pow]
    · obtain ⟨p, hp, rfl⟩ := (mem_keys_coarsen _ _ j).mp ((hmerges.keys j).mp hj)
      exact ⟨shiftRight_mono _ (minIndex_le hp), shiftRight_mono _ (le_maxIndex hp)⟩
    · refine (accumulate_upTo hmerges.sorted (by omega)).imp fun j total h => ?_
      rw [h, hbelow, hmerges.upTo, massUpTo_coarsen, ← hcase, populated, List.filter_comm, mass_filter_pos]
    · have hsum := htotal ▸ hbelow ▸ hmass
      rw [getLast?_accumulate hsum total (by rw [List.getLast?_cons, hlast]; rfl), hbelow, htotal, DataPoint.mass]

/-- `2f64.powf((index + 1) as f64 * 2f64.powi(-scale))` at a scale of at most 0, where it is a normal float. -/
def wholeBound (index scale : Int) : UInt64 := .ofNat (((index + 1) * 2 ^ (-scale).toNat + 1023).toNat * 2 ^ 52)

/-- A hundred buckets from a negative offset, with mass at both ends. They are merged to scale 0. -/
def samplePoint : DataPoint where
  scale := 1
  zeroCount := 4
  positive := some
    { offset := -70
      bucketCounts := 1 :: List.replicate 98 0 ++ [2]
      offset_range := by decide
      length_lt := by decide }
  negative := some { offset := 5, bucketCounts := [7], offset_range := by decide, length_lt := by decide }
  sum := none
  count := 14

theorem exponentialHistogramPoint_downscales_sample :
    samplePoint.mass < 2 ^ 64 ∧ ∃ d js, DownscaledTo wholeBound samplePoint d js
      (exponentialHistogramPoint wholeBound samplePoint) := by
  have hmass : samplePoint.mass < 2 ^ 64 := by decide
  exact ⟨hmass, exponentialHistogramPoint_downscales _ samplePoint hmass⟩

/-- The boundaries are 2 ^ -34 and 2 ^ 15. -/
example : (exponentialHistogramPoint wholeBound samplePoint).bounds = [0x3dd0000000000000, 0x40e0000000000000] ∧
    (exponentialHistogramPoint wholeBound samplePoint).cumulative = [12, 14] := by
  decide +kernel

end ExponentialHistogram

end Signy
