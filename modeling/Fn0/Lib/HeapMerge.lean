/-
Merging ordered sources through a heap of their heads, with each key once.

A source gives its items one after the other and can fail. The heap is any that gives a least head first. The items that
are left are those in the heap and those that the sources still have; the least of them is in the heap, because every
source that has one has its head there.
-/
import Mathlib

namespace HeapMerge

variable {α κ σ ε : Type} [LinearOrder κ]

/-- An item and the source that it came from. -/
structure Head (α : Type) where
  item : α
  source : Nat

/-- A heap of heads. Which of several least ones comes first is left open. -/
structure Heap (key : α → κ) where
  pop : List (Head α) → Option (Head α × List (Head α))
  pop_nil : pop [] = none
  pop_spec : ∀ heads, heads ≠ [] → ∃ head rest, pop heads = some (head, rest) ∧ heads.Perm (head :: rest) ∧
    ∀ other ∈ heads, key head.item ≤ key other.item

theorem pairwise_sort (key : α → κ) (l : List α) :
    (l.insertionSort fun a b => key a ≤ key b).Pairwise fun a b => key a ≤ key b := by
  have : Std.Total fun a b : α => key a ≤ key b := ⟨fun a b => le_total _ _⟩
  have : IsTrans α fun a b => key a ≤ key b := ⟨fun a b c => le_trans⟩
  exact List.pairwise_insertionSort _ _

/-- The heads in order. -/
def Heap.sorted (key : α → κ) : Heap key where
  pop heads := match heads.insertionSort fun a b => key a.item ≤ key b.item with
    | [] => none
    | head :: rest => some (head, rest)
  pop_nil := rfl
  pop_spec heads hne := by
    have hsorted := pairwise_sort (fun head : Head α => key head.item) heads
    have hperm := List.perm_insertionSort (fun a b : Head α => key a.item ≤ key b.item) heads
    cases hheads : heads.insertionSort fun a b => key a.item ≤ key b.item with
    | nil =>
      rw [hheads] at hperm
      exact absurd hperm.nil_eq.symm hne
    | cons head rest =>
      rw [hheads] at hperm hsorted
      refine ⟨head, rest, rfl, hperm.symm, fun other hother => ?_⟩
      rcases List.mem_cons.mp (hperm.mem_iff.mpr hother) with rfl | hother
      · exact le_rfl
      · exact (List.pairwise_cons.mp hsorted).1 other hother

structure Merger (α σ : Type) where
  sources : List σ
  heap : List (Head α)
  primed : Bool

section Merge

variable {key : α → κ} (heap : Heap key) (next : σ → Except ε (Option α × σ))

/-- The next item of a source joins the heap. -/
def pushFrom (m : Merger α σ) (i : Nat) : Except ε (Merger α σ) :=
  match m.sources[i]? with
  | none => .ok m
  | some source => (next source).map fun given =>
    { m with sources := m.sources.set i given.2, heap := (given.1.map fun item => ⟨item, i⟩).toList ++ m.heap }

def prime (m : Merger α σ) : Except ε (Merger α σ) :=
  if m.primed then .ok m
  else ((List.range m.sources.length).foldlM (pushFrom next) m).map fun m => { m with primed := true }

def pop (m : Merger α σ) : Except ε (Option α × Merger α σ) := do
  let m ← prime next m
  match heap.pop m.heap with
  | none => return (none, m)
  | some (head, rest) =>
    let m ← pushFrom next { m with heap := rest } head.source
    return (some head.item, m)

/-- Heads with the key of the item are dropped. `none` is a loop that has not ended. -/
def skipCopies (item : α) : Nat → Merger α σ → Option (Except ε (Merger α σ))
  | 0, _ => none
  | fuel + 1, m =>
    if (heap.pop m.heap).any fun popped => key popped.1.item = key item then
      match pop heap next m with
      | .error e => some (.error e)
      | .ok popped => skipCopies item fuel popped.2
    else some (.ok m)

def nextItem (fuel : Nat) (m : Merger α σ) : Option (Except ε (Option α × Merger α σ)) :=
  match pop heap next m with
  | .error e => some (.error e)
  | .ok (none, m) => some (.ok (none, m))
  | .ok (some item, m) => (skipCopies heap next item fuel m).map fun result => result.map fun m => (some item, m)

end Merge

/-! ## The items that are left -/

/-- `next` gives the items that a source has, one after the other. -/
def Serving (next : σ → Except ε (Option α × σ)) (Serves : σ → List α → Prop) : Prop :=
  ∀ source items, Serves source items → ∃ rest, next source = .ok (items.head?, rest) ∧ Serves rest items.tail

/-- The sources have these items, in order, and the covered ones that have an item have one in the heap before it. -/
structure Merging (key : α → κ) (Serves : σ → List α → Prop) (m : Merger α σ) (rests : List (List α))
  (covered : Nat → Prop) :
    Prop where
  serves : List.Forall₂ Serves m.sources rests
  sorted : ∀ rest ∈ rests, rest.Pairwise fun a b => key a ≤ key b
  below : ∀ head ∈ m.heap, ∀ rest, rests[head.source]? = some rest → ∀ item ∈ rest, key head.item ≤ key item
  headed : ∀ i rest, covered i → rests[i]? = some rest → rest ≠ [] → ∃ head ∈ m.heap, head.source = i

def left (m : Merger α σ) (rests : List (List α)) : List α := m.heap.map Head.item ++ rests.flatten

theorem cons_flatten_set {rests : List (List α)} {i : Nat} {a : α} {rest : List α} (h : rests[i]? = some (a :: rest)) :
    (a :: (rests.set i rest).flatten).Perm rests.flatten := by
  induction rests generalizing i with
  | nil => cases h
  | cons first rests ih =>
    cases i with
    | zero =>
      cases h
      exact .refl _
    | succ i =>
      have hrest := ih h
      exact List.perm_middle.symm.trans (hrest.append_left first)

variable {key : α → κ} {Serves : σ → List α → Prop} {next : σ → Except ε (Option α × σ)} {m : Merger α σ}
  {rests : List (List α)} {covered : Nat → Prop} {pending : List α}

theorem getElem?_set_tail {i : Nat} (hi : i < rests.length) {j : Nat} {rest : List α}
    (h : (rests.set i rests[i].tail)[j]? = some rest) : (j = i ∧ rest = rests[i].tail) ∨
    (j ≠ i ∧ rests[j]? = some rest) := by
  rw [List.getElem?_set] at h
  split at h
  next heq => exact .inl ⟨heq.symm, (Option.some.inj h).symm⟩
  next hne => exact .inr ⟨fun heq => hne heq.symm, h⟩

/-- What is left stays the same when a source gives its next item to the heap. -/
theorem left_perm {i : Nat} (hi : i < rests.length) :
    (((rests[i].head?.map fun item => Head.mk item i).toList ++ m.heap).map Head.item ++
      (rests.set i rests[i].tail).flatten).Perm (left m rests) := by
  cases hcons : rests[i] with
  | nil =>
    have hself : rests.set i [] = rests := by
      rw [← hcons]
      exact List.set_getElem_self _
    simp [left, hself]
  | cons a rest =>
    have hget : rests[i]? = some (a :: rest) := by rw [List.getElem?_eq_getElem hi, hcons]
    exact List.perm_middle.symm.trans ((cons_flatten_set hget).append_left _)

theorem Merging.given (h : Merging key Serves m rests covered) {i : Nat} (hi : i < rests.length) {source : σ}
    (hserves : Serves source rests[i].tail) :
    Merging key Serves
      { m with sources := m.sources.set i source, heap := (rests[i].head?.map fun item => ⟨item, i⟩).toList ++ m.heap }
      (rests.set i rests[i].tail) (fun j => covered j ∨ j = i) where
  serves := by
    have hall := List.forall₂_iff_get.mp h.serves
    refine List.forall₂_iff_get.mpr ⟨by simp [hall.1], fun j hj hj' => ?_⟩
    simp only [List.get_eq_getElem, List.getElem_set]
    split
    · exact hserves
    · exact hall.2 j (by simpa using hj) (by simpa using hj')
  sorted rest hmem := by
    rcases List.mem_or_eq_of_mem_set hmem with hmem | rfl
    · exact h.sorted rest hmem
    · exact (h.sorted _ (List.getElem_mem hi)).tail
  below head hhead rest hj item hitem := by
    rcases List.mem_append.mp hhead with hhead | hhead
    · -- The new head comes before what follows it in its source.
      obtain ⟨a, ha, rfl⟩ := Option.map_eq_some_iff.mp (Option.mem_toList.mp hhead)
      rcases getElem?_set_tail hi hj with ⟨-, rfl⟩ | ⟨hne, -⟩
      · have hcons : rests[i] = a :: rests[i].tail := (List.cons_head?_tail ha).symm
        have hsorted := h.sorted _ (List.getElem_mem hi)
        rw [hcons] at hsorted
        exact (List.pairwise_cons.mp hsorted).1 item hitem
      · exact absurd rfl hne
    · rcases getElem?_set_tail hi hj with ⟨heq, rfl⟩ | ⟨-, hj⟩
      · exact h.below head hhead rests[i] (by rw [heq, List.getElem?_eq_getElem hi]) item (List.mem_of_mem_tail hitem)
      · exact h.below head hhead rest hj item hitem
  headed j rest hcovered hj hne := by
    rcases getElem?_set_tail hi hj with ⟨rfl, rfl⟩ | ⟨hji, hj⟩
    · obtain ⟨a, ha⟩ : ∃ a, rests[j].head? = some a := by
        cases hcons : rests[j] with
        | nil => simp [hcons] at hne
        | cons a rest => exact ⟨a, rfl⟩
      exact ⟨⟨a, j⟩, List.mem_append_left _ (by rw [ha]; exact List.mem_singleton_self _), rfl⟩
    · obtain ⟨head, hhead, hsource⟩ := h.headed j rest (hcovered.resolve_right hji) hj hne
      exact ⟨head, List.mem_append_right _ hhead, hsource⟩

theorem Merging.pushFrom (h : Merging key Serves m rests covered) (hnext : Serving next Serves) (i : Nat) :
    ∃ m' rests', pushFrom next m i = .ok m' ∧ Merging key Serves m' rests' (fun j => covered j ∨ j = i) ∧
      (left m' rests').Perm (left m rests) ∧ m'.primed = m.primed ∧ m'.sources.length = m.sources.length := by
  have hall := List.forall₂_iff_get.mp h.serves
  by_cases hi : i < rests.length
  · have hget : m.sources[i]? = some m.sources[i] := List.getElem?_eq_getElem (by omega)
    obtain ⟨source, hgives, hserves⟩ := hnext _ _ (hall.2 i (by omega) hi)
    refine ⟨_, _, ?_, h.given hi hserves, left_perm hi, rfl, List.length_set⟩
    rw [List.get_eq_getElem, List.get_eq_getElem] at hgives
    simp only [HeapMerge.pushFrom, hget, hgives]
    rfl
  · refine ⟨m, rests, ?_, ⟨h.serves, h.sorted, h.below, ?_⟩, .refl _, rfl, rfl⟩
    · rw [HeapMerge.pushFrom, List.getElem?_eq_none (by omega)]
    · intro j rest hj hrest hne
      rcases hj with hj | rfl
      · exact h.headed j rest hj hrest hne
      · rw [List.getElem?_eq_none (by omega)] at hrest
        cases hrest

/-- The sources give their heads one after the other. -/
theorem Merging.pushAll (h : Merging key Serves m rests covered) (hnext : Serving next Serves) (is : List Nat) :
    ∃ m' rests', is.foldlM (HeapMerge.pushFrom next) m = .ok m' ∧ Merging key Serves m' rests'
      (fun j => covered j ∨ j ∈ is) ∧
      (left m' rests').Perm (left m rests) ∧ m'.sources.length = m.sources.length := by
  induction is generalizing m rests covered with
  | nil => exact ⟨m, rests, rfl, { h with headed := fun i rest hi => h.headed i rest (by simpa using hi) },
      .refl _, rfl⟩
  | cons i is ih =>
    obtain ⟨m₁, rests₁, hpush, hmerging, hperm, -, hlength⟩ := h.pushFrom hnext i
    obtain ⟨m₂, rests₂, hfold, hmerging, hperm', hlength'⟩ := ih hmerging
    refine ⟨m₂, rests₂, ?_, { hmerging with headed := fun j rest hj => hmerging.headed j rest ?_ }, hperm'.trans hperm,
      hlength'.trans hlength⟩
    · rw [List.foldlM_cons, hpush]
      exact hfold
    · rw [List.mem_cons] at hj
      tauto

/-- The merger has these items left. -/
def Holds (key : α → κ) (Serves : σ → List α → Prop) (m : Merger α σ) (pending : List α) : Prop :=
  ∃ rests, Merging key Serves m rests (fun _ => m.primed = true) ∧ pending.Perm (left m rests)

theorem Holds.start {sources : List σ} (hserves : List.Forall₂ Serves sources rests)
    (hsorted : ∀ rest ∈ rests, rest.Pairwise fun a b => key a ≤ key b) :
    Holds key Serves ⟨sources, [], false⟩ rests.flatten :=
  ⟨rests, ⟨hserves, hsorted, by simp, by simp⟩, .refl _⟩

theorem Holds.prime (h : Holds key Serves m pending) (hnext : Serving next Serves) :
    ∃ m', prime next m = .ok m' ∧ Holds key Serves m' pending ∧ m'.primed = true := by
  by_cases hprimed : m.primed = true
  · exact ⟨m, if_pos hprimed, h, hprimed⟩
  · obtain ⟨rests, hmerging, hpending⟩ := h
    obtain ⟨m₁, rests₁, hfold, hmerging, hperm, hlength⟩ := hmerging.pushAll hnext (List.range m.sources.length)
    refine ⟨{ m₁ with primed := true }, ?_, ⟨rests₁, ⟨hmerging.serves, hmerging.sorted, hmerging.below, ?_⟩,
      hpending.trans hperm.symm⟩, rfl⟩
    · rw [HeapMerge.prime, if_neg hprimed, hfold]
      rfl
    · intro i rest _ hrest
      refine hmerging.headed i rest (.inr ?_) hrest
      have hi := (List.getElem?_eq_some_iff.mp hrest).1
      rw [← hmerging.serves.length_eq, hlength] at hi
      exact List.mem_range.mpr hi

/-- **The least item** is popped, or there is none. -/
theorem Holds.pop (heap : Heap key) (h : Holds key Serves m pending) (hnext : Serving next Serves)
    (hprimed : m.primed = true) :
    (pending = [] ∧ heap.pop m.heap = none ∧ pop heap next m = .ok (none, m)) ∨
    ∃ head rest m' pending', heap.pop m.heap = some (head, rest) ∧ pop heap next m = .ok (some head.item, m') ∧
      pending.Perm (head.item :: pending') ∧ (∀ item ∈ pending, key head.item ≤ key item) ∧
      Holds key Serves m' pending' ∧ m'.primed = true := by
  obtain ⟨rests, hmerging, hpending⟩ := h
  have hprime : HeapMerge.prime next m = .ok m := if_pos hprimed
  by_cases hheap : m.heap = []
  · have hnone : heap.pop m.heap = none := by rw [hheap, heap.pop_nil]
    refine .inl ⟨?_, hnone, ?_⟩
    · have hrests : rests.flatten = [] := by
        refine List.flatten_eq_nil_iff.mpr fun rest hrest => ?_
        by_contra hne
        obtain ⟨i, hi⟩ := List.getElem?_of_mem hrest
        obtain ⟨head, hhead, -⟩ := hmerging.headed i rest hprimed hi hne
        rw [hheap] at hhead
        cases hhead
      rw [left, hheap, hrests] at hpending
      exact List.perm_nil.mp hpending
    · simp only [HeapMerge.pop, hprime, hnone, bind, Except.bind, pure, Except.pure]
  · obtain ⟨head, rest, hpop, hperm, hleast⟩ := heap.pop_spec m.heap hheap
    have hpopped : Merging key Serves { m with heap := rest } rests (fun j => j ≠ head.source) := by
      refine ⟨hmerging.serves, hmerging.sorted, fun other hother => hmerging.below other ?_,
        fun i items hi hitems hne => ?_⟩
      · exact hperm.mem_iff.mpr (List.mem_cons_of_mem _ hother)
      · obtain ⟨other, hother, hsource⟩ := hmerging.headed i items hprimed hitems hne
        rcases List.mem_cons.mp (hperm.mem_iff.mp hother) with rfl | hother
        · exact absurd hsource.symm hi
        · exact ⟨other, hother, hsource⟩
    obtain ⟨m₁, rests₁, hpush, hmerging₁, hperm₁, hprimed₁, -⟩ := hpopped.pushFrom hnext head.source
    have hleft : (left m rests).Perm (head.item :: left { m with heap := rest } rests) := by
      exact (hperm.map Head.item).append_right _
    refine .inr ⟨head, rest, m₁, left m₁ rests₁, hpop, ?_, ?_, fun item hitem => ?_, ?_, hprimed₁.trans hprimed⟩
    · simp only [HeapMerge.pop, hprime, hpop, hpush, bind, Except.bind, pure, Except.pure]
    · exact (hpending.trans hleft).trans (hperm₁.symm.cons _)
    · rcases List.mem_append.mp (hpending.mem_iff.mp hitem) with hitem | hitem
      · obtain ⟨other, hother, rfl⟩ := List.mem_map.mp hitem
        exact hleast other hother
      · -- What a source has left is not before its head in the heap.
        obtain ⟨items, hitems, hmem⟩ := List.mem_flatten.mp hitem
        obtain ⟨i, hi⟩ := List.getElem?_of_mem hitems
        obtain ⟨other, hother, rfl⟩ := hmerging.headed i items hprimed hi (List.ne_nil_of_mem hmem)
        exact (hleast other hother).trans (hmerging.below other hother items hi item hmem)
    · refine ⟨rests₁, { hmerging₁ with headed := fun i items _ => hmerging₁.headed i items ?_ }, .refl _⟩
      exact ne_or_eq i head.source

/-- Copies of the least item are skipped. -/
theorem Holds.skipCopies (heap : Heap key) (hnext : Serving next Serves) {item : α} {fuel : Nat}
    (h : Holds key Serves m pending)
    (hprimed : m.primed = true) (hleast : ∀ other ∈ pending, key item ≤ key other) (hfuel : pending.length < fuel) :
    ∃ m' pending', skipCopies heap next item fuel m = some (.ok m') ∧ Holds key Serves m' pending' ∧
      pending'.Perm (pending.filter fun other => key item < key other) := by
  induction fuel generalizing m pending with
  | zero => cases hfuel
  | succ fuel ih =>
    rw [HeapMerge.skipCopies]
    rcases h.pop heap hnext hprimed with ⟨rfl, hnone, -⟩ | ⟨head, rest, m₁, pending₁, hpop, hresult,
      hperm, hhead, hholds, hprimed₁⟩
    · rw [hnone]
      exact ⟨m, [], rfl, h, .refl _⟩
    · have hmem : head.item ∈ pending := hperm.mem_iff.mpr List.mem_cons_self
      rw [hpop, hresult, Option.any_some]
      by_cases hcopy : key head.item = key item
      · rw [if_pos (decide_eq_true hcopy)]
        have hlength := hperm.length_eq
        rw [List.length_cons] at hlength
        obtain ⟨m₂, pending₂, hskip, hholds₂, hperm₂⟩ := ih hholds hprimed₁
          (fun other hother => hleast other (hperm.mem_iff.mpr (List.mem_cons_of_mem _ hother))) (by omega)
        refine ⟨m₂, pending₂, hskip, hholds₂, hperm₂.trans ?_⟩
        have hfilter := (hperm.filter fun other => decide (key item < key other)).symm
        rwa [List.filter_cons_of_neg (by simp [hcopy])] at hfilter
      · rw [if_neg (by simpa using hcopy)]
        refine ⟨m, pending, rfl, h, ?_⟩
        rw [List.filter_eq_self.mpr]
        intro other hother
        have hlt : key item < key head.item := lt_of_le_of_ne (hleast _ hmem) (Ne.symm hcopy)
        exact decide_eq_true (hlt.trans_le (hhead other hother))

/-- **The next item** is the least that is left; what is left then is what comes after it. -/
theorem Holds.nextItem (heap : Heap key) (hnext : Serving next Serves) {fuel : Nat} (h : Holds key Serves m pending)
    (hfuel : pending.length ≤ fuel) :
    (pending = [] ∧ ∃ m', nextItem heap next fuel m = some (.ok (none, m'))) ∨
    ∃ item m' pending', nextItem heap next fuel m = some (.ok (some item, m')) ∧ item ∈ pending ∧
      (∀ other ∈ pending, key item ≤ key other) ∧ pending'.Perm (pending.filter fun other => key item < key other) ∧
      Holds key Serves m' pending' := by
  obtain ⟨m₀, hprime, hholds₀, hprimed₀⟩ := h.prime hnext
  have hpop₀ : HeapMerge.pop heap next m = HeapMerge.pop heap next m₀ := by
    simp only [HeapMerge.pop, hprime, show HeapMerge.prime next m₀ = .ok m₀ from if_pos hprimed₀]
  rw [HeapMerge.nextItem, hpop₀]
  rcases hholds₀.pop heap hnext hprimed₀ with ⟨hnil, -, hresult⟩ | ⟨head, rest, m₁, pending₁, -, hresult,
    hperm, hleast, hholds, hprimed⟩
  · rw [hresult]
    exact .inl ⟨hnil, m₀, rfl⟩
  · have hlength := hperm.length_eq
    rw [List.length_cons] at hlength
    obtain ⟨m₂, pending₂, hskip, hholds₂, hperm₂⟩ := hholds.skipCopies heap hnext hprimed
      (fun other hother => hleast other (hperm.mem_iff.mpr (List.mem_cons_of_mem _ hother)))
      (show pending₁.length < fuel by omega)
    refine .inr ⟨head.item, m₂, pending₂, ?_, hperm.mem_iff.mpr List.mem_cons_self, hleast, hperm₂.trans ?_, hholds₂⟩
    · rw [hresult]
      simp only [hskip]
      rfl
    · have hfilter := (hperm.filter fun other => decide (key head.item < key other)).symm
      rwa [List.filter_cons_of_neg (by simp)] at hfilter

end HeapMerge
