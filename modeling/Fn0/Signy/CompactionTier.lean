/-
Which parts a compaction pass rewrites together (signy/src/compaction_tier.rs), and how often a byte is rewritten.

A pass takes parts of one size band of one partition, smallest first. Sizes are `u64`, whose sums wrap as in a release
build; a partition is any ordered type, a string in the code.
-/
import Fn0.Lib.OrdMap

namespace Signy.Tier

open Std (ExtTreeMap)

def tierRatio : Nat := 8
def tierZeroMaxBytes : Nat := 4 * 1024

/-- `IDLE_PARTITION_AGE` in nanoseconds. -/
def idlePartitionAge : Int := 60 * 60 * 1000000000

structure TierPolicy where
  maxPartBytes : Nat
  minParts : Nat
  maxParts : Nat
  maxInputBytes : Nat
deriving DecidableEq, Repr

/-- One part as the selection sees it. -/
structure TierCandidate (κ : Type) where
  partition : κ
  bytes : UInt64
  maxTsNs : Int
deriving DecidableEq, Repr

/-! ## Tiers -/

/-- The loop of `tier_of`; a `u64` has room for 17 multiplications. -/
def tierLoop (bytes : Nat) : Nat → Nat → Nat → Nat
  | 0, tier, _ => tier
  | fuel + 1, tier, ceiling =>
    if ceiling ≤ bytes then
      if ceiling * tierRatio < 2 ^ 64 then tierLoop bytes fuel (tier + 1) (ceiling * tierRatio) else tier + 1
    else tier

def tierOf (bytes : UInt64) : Nat := tierLoop bytes.toNat 18 0 tierZeroMaxBytes

/-! ## Selection -/

section Selection

variable {κ : Type} [LinearOrder κ] (candidates : List (TierCandidate κ)) (policy : TierPolicy)

/-- The newest row of a partition: its entry in `newest_by_partition`. -/
def newestOf (partition : κ) : Option Int :=
  match candidates.filter (·.partition = partition) with
  | [] => none
  | parts => some (parts.foldl (fun newest c => max newest c.maxTsNs) (-2 ^ 63))

def bytesAt (index : Nat) : UInt64 := candidates[index]?.elim 0 (·.bytes)

/-- The group of a candidate, if it is small enough to be an input. -/
def keyAt (index : Nat) : Option (κ ×ₗ Nat) :=
  candidates[index]?.bind fun c =>
    if policy.maxPartBytes ≤ c.bytes.toNat then none else some (toLex (c.partition, tierOf c.bytes))

/-- One round of the loop that fills `tiers`. -/
def pushIndex (tiers : ExtTreeMap (κ ×ₗ Nat) (List Nat) compare) (index : Nat) :
    ExtTreeMap (κ ×ₗ Nat) (List Nat) compare :=
  match keyAt candidates policy index with
  | none => tiers
  | some key => tiers.insert key (tiers[key]?.getD [] ++ [index])

def tiers : ExtTreeMap (κ ×ₗ Nat) (List Nat) compare :=
  (List.range candidates.length).foldl (pushIndex candidates policy) ∅

/-- `sort_by_key(|index| (bytes, index))`. -/
def sortTier (tier : List Nat) : List Nat :=
  tier.insertionSort fun i j => toLex ((bytesAt candidates i).toNat, i) ≤ toLex ((bytesAt candidates j).toNat, j)

/-- The loop that fills `selected`. -/
def pick (selected : List Nat) (selectedBytes : UInt64) : List Nat → List Nat
  | [] => selected
  | index :: tier =>
    if selected.length = policy.maxParts ∨
        (selected ≠ [] ∧ policy.maxInputBytes < (selectedBytes + bytesAt candidates index).toNat) then selected
    else pick (selected ++ [index]) (selectedBytes + bytesAt candidates index) tier

/-- What a pass does with one tier. -/
def selectGroup (now : Int) (group : (κ ×ₗ Nat) × List Nat) : Option (List Nat) :=
  let idleBefore := max (-2 ^ 63) (now - idlePartitionAge)
  let idle := (newestOf candidates (ofLex group.1).1).any fun newest => newest < idleBefore
  if group.2.length < policy.minParts ∧ ¬(idle = true ∧ 2 ≤ group.2.length) then none
  else
    let selected := pick candidates policy [] 0 (sortTier candidates group.2)
    if 2 ≤ selected.length then some selected else none

def selectTier (now : Int) : Option (List Nat) :=
  (tiers candidates policy).toList.findSome? (selectGroup candidates policy now)

end Selection

/-! ## What is selected -/

section Facts

variable {κ : Type} [LinearOrder κ] {candidates : List (TierCandidate κ)} {policy : TierPolicy}

/-- The candidates of a group, in their order. -/
def membersOf (candidates : List (TierCandidate κ)) (policy : TierPolicy) (key : κ ×ₗ Nat) : List Nat :=
  (List.range candidates.length).filter fun index => keyAt candidates policy index = some key

theorem getElem?_pushIndex (groups : ExtTreeMap (κ ×ₗ Nat) (List Nat) compare) (index : Nat) (key : κ ×ₗ Nat) :
    (pushIndex candidates policy groups index)[key]?.getD [] =
      groups[key]?.getD [] ++ if keyAt candidates policy index = some key then [index] else [] := by
  rw [pushIndex]
  cases hkey : keyAt candidates policy index with
  | none => simp
  | some own =>
    dsimp only
    rw [OrdMap.getElem?_insert]
    by_cases heq : own = key
    · subst heq
      simp
    · simp [heq]

theorem getElem?_foldl_pushIndex (indices : List Nat) : ∀ (groups : ExtTreeMap (κ ×ₗ Nat) (List Nat) compare)
    (key : κ ×ₗ Nat),
    (indices.foldl (pushIndex candidates policy) groups)[key]?.getD [] =
      groups[key]?.getD [] ++ indices.filter fun index => keyAt candidates policy index = some key := by
  induction indices with
  | nil => simp
  | cons index indices ih =>
    intro groups key
    rw [List.foldl_cons, ih, getElem?_pushIndex, List.append_assoc, List.filter_cons]
    split <;> simp_all

/-- A group of the map is the members of its key. -/
theorem group_eq_membersOf {key : κ ×ₗ Nat} {group : List Nat} (h : (key, group) ∈ (tiers candidates policy).toList) :
    group = membersOf candidates policy key := by
  have hget := OrdMap.mem_toList.mp h
  have hfold := @getElem?_foldl_pushIndex κ _ candidates policy (List.range candidates.length) ∅ key
  rw [tiers] at hget
  rw [hget] at hfold
  exact hfold

/-- The bytes of some candidates, without overflow. -/
def sizeOf (candidates : List (TierCandidate κ)) (indices : List Nat) : Nat :=
  (indices.map fun index => (bytesAt candidates index).toNat).sum

omit [LinearOrder κ] in
theorem sizeOf_append (front back : List Nat) :
    sizeOf candidates (front ++ back) = sizeOf candidates front + sizeOf candidates back := by
  simp [sizeOf]

omit [LinearOrder κ] in
/-- What is picked is a front part of the tier, no longer than a pass may be. -/
theorem pick_spec (tier : List Nat) : ∀ {selected : List Nat} {selectedBytes : UInt64},
    selected.length ≤ policy.maxParts →
    ∃ taken left, tier = taken ++ left ∧ pick candidates policy selected selectedBytes tier = selected ++ taken ∧
      (selected ++ taken).length ≤ policy.maxParts := by
  induction tier with
  | nil => exact fun h => ⟨[], [], rfl, by simp [pick], by simpa using h⟩
  | cons index tier ih =>
    intro selected selectedBytes h
    rw [pick]
    split
    · exact ⟨[], index :: tier, rfl, by simp, by simpa using h⟩
    next hgo =>
      rw [not_or] at hgo
      obtain ⟨taken, left, rfl, hpick, hlength⟩ := @ih (selected ++ [index]) (selectedBytes + bytesAt candidates index)
        (by rw [List.length_append, List.length_singleton]; omega)
      refine ⟨index :: taken, left, rfl, ?_, ?_⟩
      · simpa using hpick
      · simpa using hlength

omit [LinearOrder κ] in
/-- What is picked is within the input bytes, unless it is the first alone; where no sum wraps. -/
theorem sizeOf_pick_le (tier : List Nat) : ∀ {selected : List Nat} {selectedBytes : UInt64},
    selectedBytes.toNat = sizeOf candidates selected → sizeOf candidates (selected ++ tier) < 2 ^ 64 →
    (selected.length ≤ 1 ∨ sizeOf candidates selected ≤ policy.maxInputBytes) →
    (pick candidates policy selected selectedBytes tier).length ≤ 1 ∨
      sizeOf candidates (pick candidates policy selected selectedBytes tier) ≤ policy.maxInputBytes := by
  induction tier with
  | nil => exact fun _ _ h => h
  | cons index tier ih =>
    intro selected selectedBytes hbytes hfits h
    rw [pick]
    split
    · exact h
    next hgo =>
      rw [not_or, not_and_or] at hgo
      rw [List.append_cons] at hfits
      have hone : sizeOf candidates [index] = (bytesAt candidates index).toNat := by simp [sizeOf]
      have hsum : (selectedBytes + bytesAt candidates index).toNat = sizeOf candidates (selected ++ [index]) := by
        rw [sizeOf_append] at hfits
        rw [UInt64.toNat_add, hbytes, ← hone, ← sizeOf_append, Nat.mod_eq_of_lt (by omega)]
      refine ih hsum hfits ?_
      rcases hgo.2 with hfirst | hroom
      · left
        rw [not_not] at hfirst
        simp [hfirst]
      · right
        omega

/-! ### One pass -/

omit [LinearOrder κ] in
theorem keyAt_eq_some {index : Nat} {key : κ ×ₗ Nat} (h : keyAt candidates policy index = some key) :
    ∃ c, candidates[index]? = some c ∧ toLex (c.partition, tierOf c.bytes) = key ∧
      c.bytes.toNat < policy.maxPartBytes := by
  rw [keyAt, Option.bind_eq_some_iff] at h
  obtain ⟨c, hc, hkey⟩ := h
  split at hkey
  · cases hkey
  · exact ⟨c, hc, Option.some.inj hkey, by omega⟩

omit [LinearOrder κ] in
theorem sizeOf_range (candidates : List (TierCandidate κ)) :
    sizeOf candidates (List.range candidates.length) = (candidates.map fun c => c.bytes.toNat).sum := by
  rw [sizeOf]
  congr 1
  refine List.ext_getElem (by simp) fun i hi hi' => ?_
  simp at hi
  simp [bytesAt, hi]

/-- The group a selection was taken from: its key, and the members of it that were left. -/
theorem selectTier_eq_some {now : Int} {selected : List Nat} (h : selectTier candidates policy now = some selected) :
    ∃ key left, (selected ++ left).Perm (membersOf candidates policy key) ∧
      2 ≤ selected.length ∧ selected.length ≤ policy.maxParts ∧
      selected = pick candidates policy [] 0 (sortTier candidates (membersOf candidates policy key)) := by
  obtain ⟨⟨key, group⟩, hmem, hselect⟩ := List.exists_of_findSome?_eq_some h
  obtain rfl := group_eq_membersOf hmem
  rw [selectGroup] at hselect
  dsimp only at hselect
  split at hselect
  · cases hselect
  · split at hselect
    next htwo =>
      obtain rfl := Option.some.inj hselect
      obtain ⟨taken, left, htier, hpick, hlength⟩ := @pick_spec κ candidates policy
        (sortTier candidates (membersOf candidates policy key)) [] 0 (Nat.zero_le _)
      rw [List.nil_append] at hpick hlength
      refine ⟨key, left, ?_, htwo, hpick ▸ hlength, rfl⟩
      rw [hpick, ← htier]
      exact List.perm_insertionSort _ _
    · cases hselect

/-- What a selection is made of: candidates of one partition and one tier, small enough to be inputs, and within the
input bytes together. -/
structure Selected (candidates : List (TierCandidate κ)) (policy : TierPolicy) (selected : List Nat) : Prop where
  two_le : 2 ≤ selected.length
  le_maxParts : selected.length ≤ policy.maxParts
  nodup : selected.Nodup
  alike : ∃ partition tier, ∀ index ∈ selected, ∃ c, candidates[index]? = some c ∧ c.partition = partition ∧
    tierOf c.bytes = tier ∧ c.bytes.toNat < policy.maxPartBytes
  within : (candidates.map fun c => c.bytes.toNat).sum < 2 ^ 64 → sizeOf candidates selected ≤ policy.maxInputBytes

theorem nodup_membersOf (key : κ ×ₗ Nat) : (membersOf candidates policy key).Nodup := List.nodup_range.filter _

theorem sizeOf_membersOf_le (key : κ ×ₗ Nat) :
    sizeOf candidates (membersOf candidates policy key) ≤ (candidates.map fun c => c.bytes.toNat).sum := by
  rw [← sizeOf_range]
  exact List.Sublist.sum_le_sum (List.filter_sublist.map _) fun _ _ => Nat.zero_le _

theorem selectTier_selected {now : Int} {selected : List Nat} (h : selectTier candidates policy now = some selected) :
    Selected candidates policy selected := by
  obtain ⟨key, left, hperm, htwo, hmax, hpick⟩ := selectTier_eq_some h
  have hmem : ∀ index ∈ selected, keyAt candidates policy index = some key := fun index hindex => by
    have := hperm.subset (List.mem_append_left left hindex)
    simpa using (List.mem_filter.mp this).2
  refine ⟨htwo, hmax, (hperm.nodup_iff.mpr (nodup_membersOf key)).of_append_left,
    ⟨(ofLex key).1, (ofLex key).2, fun index hindex => ?_⟩, fun hfits => ?_⟩
  · obtain ⟨c, hc, hkey, hsmall⟩ := keyAt_eq_some (hmem index hindex)
    exact ⟨c, hc, by rw [← hkey]; rfl, by rw [← hkey]; rfl, hsmall⟩
  · have hsize : sizeOf candidates (sortTier candidates (membersOf candidates policy key)) < 2 ^ 64 := by
      have hsame : sizeOf candidates (sortTier candidates (membersOf candidates policy key)) =
          sizeOf candidates (membersOf candidates policy key) := ((List.perm_insertionSort _ _).map _).sum_eq
      exact hsame ▸ (sizeOf_membersOf_le key).trans_lt hfits
    rcases @sizeOf_pick_le κ candidates policy (sortTier candidates (membersOf candidates policy key)) [] 0 rfl hsize
      (.inl (Nat.zero_le 1)) with hshort | hwithin
    · rw [← hpick] at hshort
      omega
    · rwa [← hpick] at hwithin

end Facts

/-! ## The ladder -/

/-- A tier above the lowest starts where the one below ends, and ends where it is a ratio wider; the highest has no
end. -/
theorem tierLoop_spec (bytes : Nat) (fuel : Nat) : ∀ {tier : Nat}, tier + fuel = 18 →
    (tier ≠ 0 → tierZeroMaxBytes * tierRatio ^ (tier - 1) ≤ bytes) →
    let result := tierLoop bytes fuel tier (tierZeroMaxBytes * tierRatio ^ tier)
    result ≤ 18 ∧ (result ≠ 0 → tierZeroMaxBytes * tierRatio ^ (result - 1) ≤ bytes) ∧
      (result < 18 → bytes < tierZeroMaxBytes * tierRatio ^ result) := by
  induction fuel with
  | zero =>
    intro tier htier hfloor
    exact ⟨by rw [tierLoop]; omega, hfloor, fun hlt => by rw [tierLoop] at hlt; omega⟩
  | succ fuel ih =>
    intro tier htier hfloor
    rw [tierLoop]
    split
    next hceiling =>
      rw [Nat.mul_assoc, ← Nat.pow_succ]
      split
      next => exact ih (by omega) fun _ => hceiling
      next hfull =>
        refine ⟨by omega, fun _ => hceiling, fun hlt => (hfull ?_).elim⟩
        calc tierZeroMaxBytes * tierRatio ^ (tier + 1) ≤ tierZeroMaxBytes * tierRatio ^ 17 :=
              Nat.mul_le_mul_left _ (Nat.pow_le_pow_right (by decide) (by omega))
          _ < 2 ^ 64 := by decide
    next hceiling => exact ⟨by omega, hfloor, fun _ => by omega⟩

theorem tierOf_spec (bytes : UInt64) : tierOf bytes ≤ 18 ∧
    (tierOf bytes ≠ 0 → tierZeroMaxBytes * tierRatio ^ (tierOf bytes - 1) ≤ bytes.toNat) ∧
      (tierOf bytes < 18 → bytes.toNat < tierZeroMaxBytes * tierRatio ^ tierOf bytes) :=
  tierLoop_spec bytes.toNat 18 rfl (fun h => (h rfl).elim)

theorem tierOf_ne_zero {bytes : UInt64} (h : tierZeroMaxBytes ≤ bytes.toNat) : tierOf bytes ≠ 0 := by
  intro hzero
  have hlt := (tierOf_spec bytes).2.2 (by omega)
  rw [hzero] at hlt
  simp only [pow_zero, mul_one] at hlt
  omega

/-- Eight parts of a tier above the lowest make one of a higher tier. -/
theorem tierOf_lt_of_sum {bytes : UInt64} {tier : Nat} (htier : tier ≠ 0)
    (h : tierRatio * (tierZeroMaxBytes * tierRatio ^ (tier - 1)) ≤ bytes.toNat) : tier < tierOf bytes := by
  have hpow : tierRatio * (tierZeroMaxBytes * tierRatio ^ (tier - 1)) = tierZeroMaxBytes * tierRatio ^ tier := by
    obtain ⟨t, rfl⟩ := Nat.exists_eq_succ_of_ne_zero htier
    rw [Nat.succ_sub_one, Nat.pow_succ]
    ring
  rw [hpow] at h
  obtain ⟨hle, -, hceiling⟩ := tierOf_spec bytes
  by_contra hnot
  have hlt : tierOf bytes < 18 := by
    by_contra hge
    have htop : tierZeroMaxBytes * tierRatio ^ 18 ≤ tierZeroMaxBytes * tierRatio ^ tier :=
      Nat.mul_le_mul_left _ (Nat.pow_le_pow_right (by decide) (by omega))
    have hword := bytes.toNat_lt
    have hbig : (2 : Nat) ^ 64 ≤ tierZeroMaxBytes * tierRatio ^ 18 := by decide
    omega
  have hmono : tierZeroMaxBytes * tierRatio ^ tierOf bytes ≤ tierZeroMaxBytes * tierRatio ^ tier :=
    Nat.mul_le_mul_left _ (Nat.pow_le_pow_right (by decide) (by omega))
  have := hceiling hlt
  omega

/-! ## Runs -/

/-- A live part, and for every byte of it how often it has been rewritten. -/
structure Part (κ : Type) where
  candidate : TierCandidate κ
  rewrites : List Nat
deriving DecidableEq, Repr

section Runs

variable {κ : Type} [LinearOrder κ]

/-- The parts a pass reads. -/
def inputsOf (parts : List (Part κ)) (selected : List Nat) : List (Part κ) := selected.filterMap (parts[·]?)

/-- The parts a pass leaves as they are. -/
def keptBy (parts : List (Part κ)) (selected : List Nat) : List (Part κ) :=
  (parts.zipIdx.filter fun p => p.2 ∉ selected).map Prod.fst

/-- A pass: the selected parts give way to one part, and the rest stay, in any order. -/
structure Pass (policy : TierPolicy) (parts : List (Part κ)) (now : Int) (selected : List Nat) (output : Part κ)
    (parts' : List (Part κ)) : Prop where
  selects : selectTier (parts.map Part.candidate) policy now = some selected
  leaves : parts'.Perm (output :: keptBy parts selected)

/-- Some passes one after the other, and nothing else. -/
inductive Passes (policy : TierPolicy) : Nat → List (Part κ) → List (Part κ) → Prop
  | none (parts : List (Part κ)) : Passes policy 0 parts parts
  | more {n : Nat} {parts parts' parts'' : List (Part κ)} {now : Int} {selected : List Nat} {output : Part κ}
      (passes : Passes policy n parts parts') (pass : Pass policy parts' now selected output parts'') :
      Passes policy (n + 1) parts parts''

/-- The candidates that compete with one for a pass: those of its partition and tier. -/
def peersOf (policy : TierPolicy) (parts : List (Part κ)) (index : Nat) : List Nat :=
  match keyAt (parts.map Part.candidate) policy index with
  | none => []
  | some key => membersOf (parts.map Part.candidate) policy key

/-- A pass as the ladder wants it: over a full tier, cut by the number of parts at most, with an output of exactly the
bytes of its inputs, every one of which it rewrites. -/
structure FullPass (policy : TierPolicy) (parts : List (Part κ)) (now : Int) (selected : List Nat) (output : Part κ)
    (parts' : List (Part κ)) : Prop extends Pass policy parts now selected output parts' where
  full : ∀ index ∈ selected, policy.minParts ≤ (peersOf policy parts index).length
  uncut : ∀ index ∈ selected, selected.length = min (peersOf policy parts index).length policy.maxParts
  exact : output.candidate.bytes.toNat = sizeOf (parts.map Part.candidate) selected
  rewrites : output.rewrites = ((inputsOf parts selected).flatMap Part.rewrites).map (· + 1)

/-- Flushes of new parts above the lowest tier, and full passes, in any order. -/
inductive Reachable (policy : TierPolicy) : List (Part κ) → Prop
  | empty : Reachable policy []
  | flush {parts parts' : List (Part κ)} (part : Part κ) (reached : Reachable policy parts)
      (large : tierZeroMaxBytes ≤ part.candidate.bytes.toNat) (fresh : ∀ r ∈ part.rewrites, r = 0)
      (adds : parts'.Perm (part :: parts)) : Reachable policy parts'
  | pass {parts parts' : List (Part κ)} {now : Int} {selected : List Nat} {output : Part κ}
      (reached : Reachable policy parts) (pass : FullPass policy parts now selected output parts') :
      Reachable policy parts'

omit [LinearOrder κ] in
theorem length_keptBy {parts : List (Part κ)} {selected : List Nat} (hnodup : selected.Nodup)
    (hlt : ∀ index ∈ selected, index < parts.length) :
    (keptBy parts selected).length + selected.length = parts.length := by
  have hkept : (keptBy parts selected).length = (List.range parts.length).countP (· ∉ selected) := by
    rw [keptBy, List.length_map, ← List.countP_eq_length_filter, List.range_eq_range', ← List.zipIdx_map_snd 0 parts,
      List.countP_map]
    rfl
  have htaken : (List.range parts.length).countP (· ∈ selected) = selected.length := by
    rw [List.countP_eq_length_filter]
    refine List.Perm.length_eq ((List.perm_ext_iff_of_nodup (List.nodup_range.filter _) hnodup).mpr fun index => ?_)
    simpa using hlt index
  have hsplit := List.length_eq_countP_add_countP (fun index => decide (index ∈ selected))
    (l := List.range parts.length)
  have hrest : (List.range parts.length).countP (fun index => ¬decide (index ∈ selected) = true) =
      (List.range parts.length).countP (· ∉ selected) := List.countP_congr fun index _ => by simp
  rw [hrest, htaken, ← hkept, List.length_range] at hsplit
  omega

theorem Pass.length_lt {policy : TierPolicy} {parts parts' : List (Part κ)} {now : Int} {selected : List Nat}
    {output : Part κ} (h : Pass policy parts now selected output parts') : parts'.length < parts.length := by
  have hselected := selectTier_selected h.selects
  have hlength := @length_keptBy κ parts selected hselected.nodup fun index hindex => by
    obtain ⟨partition, tier, halike⟩ := hselected.alike
    obtain ⟨c, hc, -⟩ := halike index hindex
    have := (List.getElem?_eq_some_iff.mp hc).1
    simpa using this
  have hleaves := h.leaves.length_eq
  have htwo := hselected.two_le
  rw [List.length_cons] at hleaves
  omega

/-- Every pass leaves fewer parts. -/
theorem Passes.length_le {policy : TierPolicy} {n : Nat} {parts parts' : List (Part κ)}
    (h : Passes policy n parts parts') :
    n + parts'.length ≤ parts.length := by
  induction h with
  | none parts => simp
  | more passes pass ih =>
    have := pass.length_lt
    omega

/-- What a byte has been through fits below its part's tier. -/
def Climbed (part : Part κ) : Prop :=
  tierZeroMaxBytes ≤ part.candidate.bytes.toNat ∧ ∀ r ∈ part.rewrites, r < tierOf part.candidate.bytes

section Full

variable {policy : TierPolicy} (hmin : tierRatio ≤ policy.minParts) (hmax : tierRatio ≤ policy.maxParts)
include hmin hmax

/-- The selected parts of a full pass are a ratio of parts of one tier, above the lowest. -/
theorem FullPass.tier {parts parts' : List (Part κ)} {now : Int} {selected : List Nat} {output : Part κ}
    (h : FullPass policy parts now selected output parts') (hparts : ∀ part ∈ parts, Climbed part) :
    ∃ tier, tier ≠ 0 ∧ (∀ input ∈ inputsOf parts selected, tierOf input.candidate.bytes = tier) ∧
      tierRatio * (tierZeroMaxBytes * tierRatio ^ (tier - 1)) ≤ output.candidate.bytes.toNat := by
  obtain ⟨key, left, hperm, htwo, -, -⟩ := selectTier_eq_some h.selects
  have hmem : ∀ index ∈ selected, keyAt (parts.map Part.candidate) policy index = some key := fun index hindex => by
    have hmember := hperm.subset (List.mem_append_left left hindex)
    simpa using (List.mem_filter.mp hmember).2
  -- every selected index is a part of the tier of the key
  have hpart : ∀ index ∈ selected, ∃ part ∈ parts, parts[index]? = some part ∧
      tierOf part.candidate.bytes = (ofLex key).2 := by
    intro index hindex
    obtain ⟨c, hc, hkey, -⟩ := keyAt_eq_some (hmem index hindex)
    rw [List.getElem?_map, Option.map_eq_some_iff] at hc
    obtain ⟨part, hget, rfl⟩ := hc
    exact ⟨part, List.mem_of_getElem? hget, hget, by rw [← hkey]; rfl⟩
  obtain ⟨index, rest, hcons⟩ := List.exists_cons_of_length_pos (by omega : 0 < selected.length)
  have hfirst : index ∈ selected := by simp [hcons]
  have htier : (ofLex key).2 ≠ 0 := by
    obtain ⟨part, hmem, -, htier⟩ := hpart index hfirst
    exact htier ▸ tierOf_ne_zero (hparts part hmem).1
  have hcount : tierRatio ≤ selected.length := by
    have hfull := h.full index hfirst
    have huncut := h.uncut index hfirst
    omega
  have hfloor : ∀ i ∈ selected, tierZeroMaxBytes * tierRatio ^ ((ofLex key).2 - 1) ≤
      (bytesAt (parts.map Part.candidate) i).toNat := by
    intro i hi
    obtain ⟨part, -, hget, htierOf⟩ := hpart i hi
    have hspec := (tierOf_spec part.candidate.bytes).2.1
    rw [htierOf] at hspec
    simpa [bytesAt, hget] using hspec htier
  refine ⟨(ofLex key).2, htier, fun input hinput => ?_, ?_⟩
  · obtain ⟨i, hi, hget⟩ := List.mem_filterMap.mp hinput
    obtain ⟨part, -, hget', htierOf⟩ := hpart i hi
    rw [hget] at hget'
    exact Option.some.inj hget' ▸ htierOf
  · rw [h.exact, sizeOf]
    calc tierRatio * (tierZeroMaxBytes * tierRatio ^ ((ofLex key).2 - 1))
        ≤ selected.length * (tierZeroMaxBytes * tierRatio ^ ((ofLex key).2 - 1)) := Nat.mul_le_mul_right _ hcount
      _ = (selected.map fun _ => tierZeroMaxBytes * tierRatio ^ ((ofLex key).2 - 1)).sum := by simp
      _ ≤ (selected.map fun i => (bytesAt (parts.map Part.candidate) i).toNat).sum :=
        List.sum_le_sum hfloor

/-- The output of a full pass lies in a higher tier than its inputs. -/
theorem FullPass.climbs {parts parts' : List (Part κ)} {now : Int} {selected : List Nat} {output : Part κ}
    (h : FullPass policy parts now selected output parts') (hparts : ∀ part ∈ parts, Climbed part) :
    ∀ input ∈ inputsOf parts selected, tierOf input.candidate.bytes < tierOf output.candidate.bytes := by
  obtain ⟨tier, htier, halike, hsum⟩ := h.tier hmin hmax hparts
  intro input hinput
  rw [halike input hinput]
  exact tierOf_lt_of_sum htier hsum

theorem Reachable.climbed {parts : List (Part κ)} (h : Reachable policy parts) : ∀ part ∈ parts, Climbed part := by
  induction h with
  | empty => exact nofun
  | flush part _ large fresh adds ih =>
    intro p hp
    rcases List.mem_cons.mp (adds.subset hp) with rfl | hp
    · refine ⟨large, fun r hr => ?_⟩
      have := tierOf_ne_zero large
      rw [fresh r hr]
      omega
    · exact ih p hp
  | @pass parts parts' now selected output _ hpass ih =>
    intro p hp
    rcases List.mem_cons.mp (hpass.leaves.subset hp) with rfl | hp
    · obtain ⟨tier, htier, -, hsum⟩ := hpass.tier hmin hmax ih
      refine ⟨le_trans ?_ hsum, fun r hr => ?_⟩
      · have hpos : 0 < tierRatio ^ (tier - 1) := Nat.pow_pos (by decide)
        have hone : tierZeroMaxBytes * 1 ≤ tierZeroMaxBytes * tierRatio ^ (tier - 1) := Nat.mul_le_mul_left _ hpos
        have height : 1 * (tierZeroMaxBytes * tierRatio ^ (tier - 1)) ≤
            tierRatio * (tierZeroMaxBytes * tierRatio ^ (tier - 1)) := Nat.mul_le_mul_right _ (by decide)
        omega
      · rw [hpass.rewrites] at hr
        obtain ⟨before, hbefore, rfl⟩ := List.mem_map.mp hr
        obtain ⟨input, hinput, hmem⟩ := List.mem_flatMap.mp hbefore
        obtain ⟨index, -, hindex⟩ := List.mem_filterMap.mp hinput
        have hbelow := (ih input (List.mem_of_getElem? hindex)).2 before hmem
        have hclimbs := hpass.climbs hmin hmax ih input hinput
        omega
    · obtain ⟨⟨part, index⟩, hmem, rfl⟩ := List.mem_map.mp hp
      exact ih part (List.fst_mem_of_mem_zipIdx (List.mem_filter.mp hmem).1)

end Full

/-- Parts that were only flushed are reached by their flushes. -/
theorem Reachable.of_flushed {policy : TierPolicy} {parts : List (Part κ)}
    (h : ∀ part ∈ parts, tierZeroMaxBytes ≤ part.candidate.bytes.toNat ∧ ∀ r ∈ part.rewrites, r = 0) :
    Reachable policy parts := by
  induction parts with
  | nil => exact .empty
  | cons part parts ih =>
    have hpart := h part List.mem_cons_self
    exact .flush part (ih fun p hp => h p (List.mem_cons_of_mem part hp)) hpart.1 hpart.2 (List.Perm.refl _)

/-- **Selection makes progress and bounds rewriting.** A selection is two parts or more of one partition and tier,
within the limits of the policy; passes alone stop, as each leaves fewer parts; and where a pass may take a full ratio
of parts, every full pass climbs, so that a byte is rewritten less often than its part's tier. -/
theorem tiered_selection (policy : TierPolicy) :
    (∀ (candidates : List (TierCandidate κ)) (now : Int) (selected : List Nat),
      selectTier candidates policy now = some selected → Selected candidates policy selected) ∧
    (∀ (n : Nat) (parts parts' : List (Part κ)), Passes policy n parts parts' → n + parts'.length ≤ parts.length) ∧
    (tierRatio ≤ policy.minParts → tierRatio ≤ policy.maxParts → ∀ parts : List (Part κ), Reachable policy parts →
      (∀ part ∈ parts, ∀ r ∈ part.rewrites, r < tierOf part.candidate.bytes ∧ tierOf part.candidate.bytes ≤ 18) ∧
      ∀ (now : Int) (selected : List Nat) (output : Part κ) (parts' : List (Part κ)),
        FullPass policy parts now selected output parts' →
          ∀ input ∈ inputsOf parts selected, tierOf input.candidate.bytes < tierOf output.candidate.bytes) := by
  refine ⟨fun _ _ _ => selectTier_selected, fun _ _ _ => Passes.length_le, fun hmin hmax parts hreached => ?_⟩
  have hclimbed := hreached.climbed hmin hmax
  refine ⟨fun part hpart r hr => ⟨(hclimbed part hpart).2 r hr, (tierOf_spec _).1⟩, ?_⟩
  exact fun _ _ _ _ hpass => hpass.climbs hmin hmax hclimbed

end Runs

/-! ## Runs of eight parts -/

/-- Eight flushed parts of a partition, of one size. -/
def eightParts (bytes : UInt64) : List (Part Nat) := List.replicate 8 ⟨⟨0, bytes, 0⟩, [0]⟩

theorem reachable_eightParts {policy : TierPolicy} {bytes : UInt64} (h : tierZeroMaxBytes ≤ bytes.toNat) :
    Reachable policy (eightParts bytes) := by
  refine Reachable.of_flushed fun part hpart => ?_
  rw [List.eq_of_mem_replicate hpart]
  exact ⟨h, by simp⟩

def ladderPolicy : TierPolicy := ⟨64 * 1024 * 1024, 8, 16, 256 * 1024 * 1024⟩

theorem fullPass_eightParts : FullPass ladderPolicy (eightParts 5000) 0 [0, 1, 2, 3, 4, 5, 6, 7]
    ⟨⟨0, 40000, 0⟩, List.replicate 8 1⟩ [⟨⟨0, 40000, 0⟩, List.replicate 8 1⟩] where
  selects := by decide +kernel
  leaves := by decide +kernel
  full := by decide +kernel
  uncut := by decide +kernel
  exact := by decide +kernel
  rewrites := by decide +kernel

theorem tiered_selection_ladder :
    (∀ input ∈ inputsOf (eightParts 5000) [0, 1, 2, 3, 4, 5, 6, 7], tierOf input.candidate.bytes < tierOf 40000) ∧
    Selected ((eightParts 5000).map Part.candidate) ladderPolicy [0, 1, 2, 3, 4, 5, 6, 7] ∧
    1 + [(⟨⟨0, 40000, 0⟩, List.replicate 8 1⟩ : Part Nat)].length ≤ (eightParts 5000).length := by
  obtain ⟨hselects, hstops, hclimbs⟩ := tiered_selection (κ := Nat) ladderPolicy
  refine ⟨?_, hselects _ 0 _ fullPass_eightParts.selects, hstops 1 _ _ (.more (.none _) fullPass_eightParts.toPass)⟩
  exact (hclimbs (by decide) (by decide) _ (reachable_eightParts (by decide))).2 0 _ _ _ fullPass_eightParts

def pairPolicy : TierPolicy := ⟨64 * 1024 * 1024, 8, 2, 256 * 1024 * 1024⟩

/-- **Where a pass may take fewer parts than the ratio, its output can stay in the tier of its inputs**, and where sizes
add up past a word the input bytes are no bound. -/
theorem pair_stays_in_tier :
    (Reachable pairPolicy (eightParts 4096) ∧
      FullPass pairPolicy (eightParts 4096) 0 [0, 1] ⟨⟨0, 8192, 0⟩, [1, 1]⟩
        (⟨⟨0, 8192, 0⟩, [1, 1]⟩ :: List.replicate 6 ⟨⟨0, 4096, 0⟩, [0]⟩) ∧
      tierOf 4096 = 1 ∧ tierOf 8192 = 1) ∧
    (selectTier (List.replicate 3 (⟨0, 2 ^ 63, 0⟩ : TierCandidate Nat)) ⟨2 ^ 64 - 1, 2, 16, 2 ^ 63⟩ 0 = some [0, 1, 2] ∧
      2 ^ 63 < sizeOf (List.replicate 3 (⟨0, 2 ^ 63, 0⟩ : TierCandidate Nat)) [1, 2]) := by
  refine ⟨⟨reachable_eightParts (by decide), ?_, by decide, by decide⟩, by decide +kernel, by decide +kernel⟩
  constructor
  · constructor <;> decide +kernel
  all_goals decide +kernel

end Signy.Tier
