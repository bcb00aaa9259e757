/-
The bounded result of a log query (signy/src/part/sink.rs): at most `limit` rows, the nearest in the query's direction,
and the frontier that a scan skips rows by.

A `BinaryHeap` is the list of its elements, least first; its root is the last one. Rows that arrive after the counter of
arrivals has reached its maximum rank equal, and the list keeps them in the order in which they came.
-/
import Fn0.Lib.StableSort
import Fn0.Signy.LogQuery

namespace Signy

open StableSort

/-! ## The frontier -/

/-- A row at this timestamp cannot enter the result. -/
def beyondFrontier (frontier : Option Int) (forward : Bool) (timestampNs : Int) : Bool :=
  match frontier with
  | none => false
  | some frontier => if forward then timestampNs ≥ frontier else timestampNs ≤ frontier

/-- Not even the best row of a span can. -/
def spanBeyondFrontier (frontier : Option Int) (forward : Bool) (minTsNs maxTsNs : Int) : Bool :=
  beyondFrontier frontier forward (if forward then minTsNs else maxTsNs)

theorem beyond_of_span {frontier : Option Int} {forward : Bool} {minTsNs maxTsNs timestampNs : Int}
    (h : spanBeyondFrontier frontier forward minTsNs maxTsNs = true) (hmin : minTsNs ≤ timestampNs)
    (hmax : timestampNs ≤ maxTsNs) : beyondFrontier frontier forward timestampNs = true := by
  cases frontier with
  | none => exact h
  | some frontier =>
    cases forward with
    | true =>
      have hle : frontier ≤ minTsNs := of_decide_eq_true h
      exact decide_eq_true (hle.trans hmin)
    | false =>
      have hle : maxTsNs ≤ frontier := of_decide_eq_true h
      exact decide_eq_true (hmax.trans hle)

/-! ## The rows held -/

structure RankedRow where
  timestampNs : Int
  arrived : Nat
  forward : Bool
  labels : Labels
  entry : LogEntry

/-- Greatest is worst. -/
def RankedRow.cmp (row other : RankedRow) : Ordering :=
  (if row.forward then compare row.timestampNs other.timestampNs else compare other.timestampNs row.timestampNs).then
    (compare row.arrived other.arrived)

def RankedRow.row (r : RankedRow) : Labels × LogEntry := (r.labels, r.entry)

inductive Held
  | growing (rows : List (Labels × LogEntry))
  | bounded (heap : List RankedRow)

/-- A count as a `u64` that saturates. -/
def saturated (count : Nat) : Nat := min count (2 ^ 64 - 1)

structure TopKRows where
  limit : Nat
  forward : Bool
  held : Held
  arrived : Nat

/-- A heap with one more element. -/
def pushRanked (row : RankedRow) (heap : List RankedRow) : List RankedRow :=
  insertLate (fun a b => (a.cmp b).isLE = true) row heap

/-- Rows in the order of a query, by their timestamps alone. -/
def InOrder (forward : Bool) (a b : Labels × LogEntry) : Prop :=
  if forward then a.2.timestampNs ≤ b.2.timestampNs else b.2.timestampNs ≤ a.2.timestampNs

instance (forward : Bool) : DecidableRel (InOrder forward) := fun a b => by
  unfold InOrder
  infer_instance

namespace TopKRows

def new (limit : Nat) (forward : Bool) : TopKRows := ⟨limit, forward, .growing [], 0⟩

/-- A row with its place in the order of arrival. -/
def rank (forward : Bool) (arrived : Nat) (row : Labels × LogEntry) : RankedRow :=
  ⟨row.2.timestampNs, arrived, forward, row.1, row.2⟩

def offer (sink : TopKRows) (labels : Labels) (entry : LogEntry) : TopKRows :=
  if sink.limit = 0 then sink
  else
    let next := saturated (sink.arrived + 1)
    match sink.held with
    | .growing rows =>
      let rows := rows ++ [(labels, entry)]
      if rows.length = sink.limit then
        -- the index of a row in a vector is below the maximum of the counter
        let ranked := rows.zipIdx.map fun p => rank sink.forward (saturated p.2) p.1
        { sink with arrived := next, held := .bounded (ranked.foldl (fun heap row => pushRanked row heap) []) }
      else { sink with arrived := next, held := .growing rows }
    | .bounded heap =>
      let row := rank sink.forward sink.arrived (labels, entry)
      if heap.getLast?.any fun worst => row.cmp worst = .lt then
        { sink with arrived := next, held := .bounded (pushRanked row heap.dropLast) }
      else { sink with arrived := next }

def frontierNs (sink : TopKRows) : Option Int :=
  match sink.held with
  | .growing _ => none
  | .bounded heap => heap.getLast?.map (·.timestampNs)

def isClosed (sink : TopKRows) : Bool := sink.limit = 0

/-- The rows in the query's direction. `sort_by_key` is stable. -/
def intoRows (sink : TopKRows) : List (Labels × LogEntry) :=
  match sink.held with
  | .growing rows => rows.insertionSort (InOrder sink.forward)
  | .bounded heap => (heap.insertionSort fun a b => (a.cmp b).isLE = true).map RankedRow.row

end TopKRows

/-! ## The ranking -/

instance (forward : Bool) : Std.Total (InOrder forward) where
  total a b := by
    cases forward with
    | true => exact le_total a.2.timestampNs b.2.timestampNs
    | false => exact le_total b.2.timestampNs a.2.timestampNs

instance (forward : Bool) : IsTrans (Labels × LogEntry) (InOrder forward) where
  trans a b c hab hbc := by
    cases forward with
    | true => exact le_trans (show a.2.timestampNs ≤ b.2.timestampNs from hab) hbc
    | false => exact le_trans (show c.2.timestampNs ≤ b.2.timestampNs from hbc) hab

namespace RankedRow

/-- The place in the ranking of a direction. -/
def place (forward : Bool) (r : RankedRow) : ℤ ×ₗ ℕ :=
    toLex (if forward then r.timestampNs else -r.timestampNs, r.arrived)

variable {row other : RankedRow} {forward : Bool}

theorem cmp_lt_iff (h : row.forward = forward) : row.cmp other = .lt ↔ row.place forward < other.place forward := by
  subst h
  rw [cmp, Ordering.then_eq_lt, place, place, Prod.Lex.toLex_lt_toLex, compare_lt_iff_lt]
  cases row.forward with
  | true => rw [if_pos rfl, compare_lt_iff_lt, compare_eq_iff_eq]; rfl
  | false =>
    rw [if_neg Bool.false_ne_true, compare_lt_iff_lt, compare_eq_iff_eq]
    simp only [Bool.false_eq_true, if_false, neg_lt_neg_iff, neg_inj]
    exact or_congr_right (and_congr_left' eq_comm)

theorem cmp_gt_iff (h : row.forward = forward) : row.cmp other = .gt ↔ other.place forward < row.place forward := by
  subst h
  rw [cmp, Ordering.then_eq_gt, place, place, Prod.Lex.toLex_lt_toLex, compare_gt_iff_gt]
  cases row.forward with
  | true =>
    rw [if_pos rfl, compare_gt_iff_gt, compare_eq_iff_eq]
    exact or_congr_right (and_congr_left' eq_comm)
  | false =>
    rw [if_neg Bool.false_ne_true, compare_gt_iff_gt, compare_eq_iff_eq]
    simp only [Bool.false_eq_true, if_false, neg_lt_neg_iff, neg_inj]

theorem isLE_cmp_iff (h : row.forward = forward) :
    (row.cmp other).isLE = true ↔ row.place forward ≤ other.place forward := by
  rw [← not_lt, ← cmp_gt_iff h]
  cases row.cmp other <;> decide

/-- Between a row that came earlier and one that came later, the timestamps decide. -/
theorem place_le_iff (h : row.arrived ≤ other.arrived) (hrow : row.timestampNs = row.entry.timestampNs)
    (hother : other.timestampNs = other.entry.timestampNs) :
    row.place forward ≤ other.place forward ↔ InOrder forward row.row other.row := by
  rw [place, place, Prod.Lex.toLex_le_toLex, hrow, hother]
  cases forward with
  | true =>
    change _ ↔ row.entry.timestampNs ≤ other.entry.timestampNs
    simp only [if_true]
    omega
  | false =>
    change _ ↔ other.entry.timestampNs ≤ row.entry.timestampNs
    simp only [Bool.false_eq_true, if_false]
    omega

end RankedRow

/-! ## What a sink holds -/

theorem saturated_mono {count count' : Nat} (h : count ≤ count') : saturated count ≤ saturated count' :=
  min_le_min_right _ h

theorem saturated_succ (count : Nat) : saturated (saturated count + 1) = saturated (count + 1) := by
  unfold saturated
  omega

theorem saturated_saturated (count : Nat) : saturated (saturated count) = saturated count :=
    min_eq_left (min_le_right ..)

/-- Ranked rows in order, all of one direction and all from before a time. -/
structure Ranked (forward : Bool) (arrived : Nat) (heap : List RankedRow) : Prop where
  sorted : heap.Pairwise fun a b => a.place forward ≤ b.place forward
  forward : ∀ r ∈ heap, r.forward = forward
  stamps : ∀ r ∈ heap, r.timestampNs = r.entry.timestampNs
  earlier : ∀ r ∈ heap, r.arrived ≤ arrived

theorem Ranked.later {forward : Bool} {arrived arrived' : Nat} {heap : List RankedRow} (h : Ranked forward arrived heap)
    (hle : arrived ≤ arrived') : Ranked forward arrived' heap :=
  { h with earlier := fun r hr => (h.earlier r hr).trans hle }

theorem Ranked.sublist {forward : Bool} {arrived : Nat} {heap heap' : List RankedRow} (h : Ranked forward arrived heap)
    (hsub : heap'.Sublist heap) : Ranked forward arrived heap' where
  sorted := h.sorted.sublist hsub
  forward r hr := h.forward r (hsub.mem hr)
  stamps r hr := h.stamps r (hsub.mem hr)
  earlier r hr := h.earlier r (hsub.mem hr)

section Push

variable {forward : Bool} {arrived : Nat} {heap : List RankedRow}

/-- A row that comes now goes behind every row it is not ahead of. -/
theorem Ranked.push (h : Ranked forward arrived heap) (row : Labels × LogEntry) :
    Ranked forward arrived (pushRanked (TopKRows.rank forward arrived row) heap) ∧
    (pushRanked (TopKRows.rank forward arrived row) heap).map RankedRow.row =
      insertLate (InOrder forward) row (heap.map RankedRow.row) := by
  have hle (r : RankedRow) (hr : r ∈ heap) : (r.cmp (TopKRows.rank forward arrived row)).isLE = true ↔
      r.place forward ≤ (TopKRows.rank forward arrived row).place forward := RankedRow.isLE_cmp_iff (h.forward r hr)
  refine ⟨⟨?_, fun r hr => ?_, fun r hr => ?_, fun r hr => ?_⟩, ?_⟩
  · refine pairwise_insertLate _ (fun a b : RankedRow => a.place forward ≤ b.place forward)
      (fun _ _ _ => le_trans) (fun r hr hcmp => ?_) (fun r hr hcmp => ?_) h.sorted
    · exact (hle r hr).mp hcmp
    · exact (not_le.mp fun hplace => hcmp ((hle r hr).mpr hplace)).le
  · rcases (mem_insertLate _).mp hr with rfl | hr
    · rfl
    · exact h.forward r hr
  · rcases (mem_insertLate _).mp hr with rfl | hr
    · rfl
    · exact h.stamps r hr
  · rcases (mem_insertLate _).mp hr with rfl | hr
    · exact le_rfl
    · exact h.earlier r hr
  · refine map_insertLate _ RankedRow.row fun r hr => (hle r hr).trans ?_
    exact RankedRow.place_le_iff (h.earlier r hr) (h.stamps r hr) rfl

/-- Filling a heap is a stable sort. -/
theorem ranked_foldl (rows : List (Labels × LogEntry)) :
    Ranked forward (saturated rows.length)
      ((rows.zipIdx.map fun p => TopKRows.rank forward (saturated p.2) p.1).foldl
        (fun heap row => pushRanked row heap) []) ∧
    ((rows.zipIdx.map fun p => TopKRows.rank forward (saturated p.2) p.1).foldl (fun heap row => pushRanked row heap)
      []).map RankedRow.row = rows.insertionSort (InOrder forward) := by
  induction rows using List.reverseRecOn with
  | nil => exact ⟨⟨.nil, nofun, nofun, nofun⟩, rfl⟩
  | append_singleton rows row ih =>
    obtain ⟨hranked, hrows⟩ := ih
    obtain ⟨hpushed, hmap⟩ := hranked.push row
    have hlast : ((rows ++ [row]).zipIdx.map fun p => TopKRows.rank forward (saturated p.2) p.1) =
        (rows.zipIdx.map fun p => TopKRows.rank forward (saturated p.2) p.1) ++
          [TopKRows.rank forward (saturated rows.length) row] := by
      rw [List.zipIdx_append, List.map_append]
      simp
    rw [hlast, List.foldl_append, List.foldl_cons, List.foldl_nil, insertionSort_concat, ← hrows, List.length_append,
      List.length_singleton]
    exact ⟨hpushed.later (saturated_mono (Nat.le_succ _)), hmap⟩

end Push

namespace TopKRows

variable {limit : Nat} {forward : Bool} {rows : List (Labels × LogEntry)} {sink : TopKRows}

/-- A sink that has seen some rows holds the first of them in order. -/
structure Holds (limit : Nat) (forward : Bool) (rows : List (Labels × LogEntry)) (sink : TopKRows) : Prop where
  limit_eq : sink.limit = limit
  forward_eq : sink.forward = forward
  held : match sink.held with
    | .growing held => limit = 0 ∧ held = [] ∨ held = rows ∧ sink.arrived = saturated rows.length ∧ rows.length < limit
    | .bounded heap => 0 < limit ∧ limit ≤ rows.length ∧ sink.arrived = saturated sink.arrived ∧
        Ranked forward sink.arrived heap ∧ heap.map RankedRow.row = (rows.insertionSort (InOrder forward)).take limit

theorem holds_new (limit : Nat) (forward : Bool) : (new limit forward).Holds limit forward [] := by
  refine ⟨rfl, rfl, ?_⟩
  cases limit with
  | zero => exact .inl ⟨rfl, rfl⟩
  | succ limit => exact .inr ⟨rfl, rfl, Nat.succ_pos limit⟩

/-- The worst row of a full sink, and the rows in front of it. -/
theorem bounded_parts {heap : List RankedRow} (hpos : 0 < limit) (hfull : limit ≤ rows.length)
    (hheap : heap.map RankedRow.row = (rows.insertionSort (InOrder forward)).take limit) :
    ∃ init worst, heap = init ++ [worst] ∧ (rows.insertionSort (InOrder forward))[limit - 1]? = some worst.row ∧
      (rows.insertionSort (InOrder forward)).take (limit - 1) = init.map RankedRow.row ∧
      ∀ b ∈ (rows.insertionSort (InOrder forward)).take limit, InOrder forward b worst.row := by
  have hlength : heap.length = limit := by
    have := congrArg List.length hheap
    rw [List.length_map, List.length_take, List.length_insertionSort] at this
    omega
  rcases heap.eq_nil_or_concat with rfl | ⟨init, worst, rfl⟩
  · rw [List.length_nil] at hlength
    omega
  have hinit : init.length = limit - 1 := by
    rw [List.concat_eq_append, List.length_append, List.length_singleton] at hlength
    omega
  rw [List.concat_eq_append, List.map_append, List.map_singleton] at hheap
  refine ⟨init, worst, List.concat_eq_append, ?_, ?_, ?_⟩
  · rw [← List.getElem?_take_of_lt (show limit - 1 < limit by omega), ← hheap, List.getElem?_append_right
      (by simp [hinit])]
    simp [hinit]
  · rw [show limit - 1 = min (limit - 1) limit by omega, ← List.take_take, ← hheap, List.take_append_of_le_length (by
      simp [hinit]),
      List.take_of_length_le (by simp [hinit])]
  · have hsorted := (List.pairwise_insertionSort (InOrder forward) rows).sublist (List.take_sublist limit _)
    rw [← hheap] at hsorted ⊢
    intro b hb
    rcases List.mem_append.mp hb with hb | hb
    · exact (List.pairwise_append.mp hsorted).2.2 b hb worst.row (List.mem_singleton_self _)
    · rw [List.mem_singleton.mp hb]
      exact (Std.Total.total worst.row worst.row).elim id id

/-- Behind the worst row of a full sink nothing changes. -/
theorem take_concat_of_inOrder {row worst : Labels × LogEntry} (hfull : limit ≤ rows.length)
    (hall : ∀ b ∈ (rows.insertionSort (InOrder forward)).take limit, InOrder forward b worst)
    (hrow : InOrder forward worst row) :
    ((rows ++ [row]).insertionSort (InOrder forward)).take limit =
    (rows.insertionSort (InOrder forward)).take limit := by
  rw [insertionSort_concat]
  refine take_insertLate_of_forall _ (by rwa [List.length_insertionSort]) fun b hb => ?_
  exact IsTrans.trans b worst row (hall b hb) hrow

/-- **A row beyond the frontier** would not change what a sink holds. -/
theorem Holds.leave (h : sink.Holds limit forward rows) {row : Labels × LogEntry}
    (hbeyond : beyondFrontier sink.frontierNs sink.forward row.2.timestampNs = true) :
    sink.Holds limit forward (rows ++ [row]) := by
  obtain ⟨sinkLimit, sinkForward, held, arrived⟩ := sink
  obtain ⟨rfl, rfl, hheld⟩ := h
  refine ⟨rfl, rfl, ?_⟩
  cases held with
  | growing held => cases hbeyond
  | bounded heap =>
    obtain ⟨hpos, hfull, harrived, hranked, hheap⟩ := hheld
    obtain ⟨init, worst, rfl, -, -, hall⟩ := bounded_parts hpos hfull hheap
    have hrow : InOrder sinkForward worst.row row := by
      have hstamp := hranked.stamps worst (List.mem_append_right init (List.mem_singleton_self worst))
      simp only [frontierNs, List.getLast?_concat, Option.map_some, hstamp] at hbeyond
      cases sinkForward with
      | true => exact of_decide_eq_true hbeyond
      | false => exact of_decide_eq_true hbeyond
    refine ⟨hpos, by rw [List.length_append]; omega, harrived, hranked, ?_⟩
    rw [take_concat_of_inOrder hfull hall hrow, hheap]

/-- **A row is offered.** -/
theorem Holds.offer (h : sink.Holds limit forward rows) (row : Labels × LogEntry) :
    (sink.offer row.1 row.2).Holds limit forward (rows ++ [row]) := by
  obtain ⟨sinkLimit, sinkForward, held, arrived⟩ := sink
  obtain ⟨rfl, rfl, hheld⟩ := h
  by_cases hzero : sinkLimit = 0
  · subst hzero
    cases held with
    | growing held =>
      rcases hheld with hempty | ⟨-, -, hlt⟩
      · exact ⟨rfl, rfl, .inl hempty⟩
      · exact absurd hlt (Nat.not_lt_zero _)
    | bounded heap => exact absurd hheld.1 (Nat.lt_irrefl 0)
  · cases held with
    | growing held =>
      obtain ⟨rfl, rfl, hlt⟩ := hheld.resolve_left fun hempty => hzero hempty.1
      simp only [TopKRows.offer, if_neg hzero]
      split
      next hfull =>
        obtain ⟨hranked, hrows⟩ := @ranked_foldl sinkForward (held ++ [row])
        rw [saturated_succ]
        refine ⟨rfl, rfl, Nat.pos_of_ne_zero hzero, hfull.ge, (saturated_saturated _).symm, ?_, ?_⟩
        · rw [List.length_append, List.length_singleton] at hranked
          exact hranked
        · refine hrows.trans (List.take_of_length_le ?_).symm
          rw [List.length_insertionSort]
          exact hfull.le
      next hroom =>
        rw [List.length_append, List.length_singleton] at hroom
        refine ⟨rfl, rfl, .inr ⟨rfl, ?_, ?_⟩⟩
        · rw [saturated_succ, List.length_append, List.length_singleton]
        · rw [List.length_append, List.length_singleton]
          exact lt_of_le_of_ne hlt hroom
    | bounded heap =>
      obtain ⟨hpos, hfull, harrived, hranked, hheap⟩ := hheld
      have hlater : arrived ≤ saturated (arrived + 1) := harrived.le.trans (saturated_mono (Nat.le_succ arrived))
      obtain ⟨init, worst, rfl, hworst, hinit, hall⟩ := bounded_parts hpos hfull hheap
      have hmem : worst ∈ init ++ [worst] := List.mem_append_right init (List.mem_singleton_self worst)
      -- The newcomer came after the worst row, so only a better timestamp lets it in.
      have hplace : (rank sinkForward arrived row).place sinkForward < worst.place sinkForward ↔
          ¬InOrder sinkForward worst.row row := by
        rw [← not_le, RankedRow.place_le_iff (hranked.earlier worst hmem) (hranked.stamps worst hmem) rfl]
        rfl
      have hlonger : sinkLimit ≤ (rows ++ [row]).length := by
        rw [List.length_append]
        exact Nat.le_add_right_of_le hfull
      simp only [TopKRows.offer, if_neg hzero, List.getLast?_concat, Option.any_some, List.dropLast_concat]
      split
      next hbetter =>
        have hnot := hplace.mp ((RankedRow.cmp_lt_iff rfl).mp (of_decide_eq_true hbetter))
        obtain ⟨hpushed, hmap⟩ := (hranked.sublist (List.sublist_append_left init [worst])).push row
        refine ⟨rfl, rfl, hpos, hlonger, (saturated_saturated _).symm, hpushed.later hlater, ?_⟩
        have htake := take_insertLate_of_not (InOrder sinkForward) hworst hnot
        rw [Nat.sub_add_cancel hpos] at htake
        refine hmap.trans ?_
        rw [← hinit, insertionSort_concat, htake]
      next hworse =>
        have hrow : InOrder sinkForward worst.row row := by
          by_contra hnot
          exact hworse (decide_eq_true ((RankedRow.cmp_lt_iff rfl).mpr (hplace.mpr hnot)))
        refine ⟨rfl, rfl, hpos, hlonger, (saturated_saturated _).symm, hranked.later hlater, ?_⟩
        rw [take_concat_of_inOrder hfull hall hrow, hheap]

/-- What a sink that holds the first rows in order returns. -/
theorem Holds.intoRows (h : sink.Holds limit forward rows) :
    sink.intoRows = (rows.insertionSort (InOrder forward)).take limit := by
  obtain ⟨hlimit, hforward, hheld⟩ := h
  rw [TopKRows.intoRows, hforward]
  cases hsink : sink.held with
  | growing held =>
    rw [hsink] at hheld
    rcases hheld with ⟨rfl, rfl⟩ | ⟨rfl, -, hlt⟩
    · rfl
    · exact (List.take_of_length_le (by rw [List.length_insertionSort]; omega)).symm
  | bounded heap =>
    rw [hsink] at hheld
    obtain ⟨-, -, -, hranked, hheap⟩ := hheld
    have hsorted : heap.Pairwise fun a b => (a.cmp b).isLE = true :=
      hranked.sorted.imp_of_mem fun ha _ hle => (RankedRow.isLE_cmp_iff (hranked.forward _ ha)).mpr hle
    dsimp only
    rw [hsorted.insertionSort_eq, hheap]

/-! ## Scans -/

/-- A scan over a sequence of rows: a row is offered, or it lies beyond the frontier and is left out, alone or with a
whole span of rows that is known by its bounds. -/
inductive Scan : TopKRows → List (Labels × LogEntry) → TopKRows → Prop
  | done (sink : TopKRows) : Scan sink [] sink
  | offer {sink last : TopKRows} {rest : List (Labels × LogEntry)} (row : Labels × LogEntry) :
      Scan (sink.offer row.1 row.2) rest last → Scan sink (row :: rest) last
  | leave {sink last : TopKRows} {rest : List (Labels × LogEntry)} (row : Labels × LogEntry) :
      beyondFrontier sink.frontierNs sink.forward row.2.timestampNs = true → Scan sink rest last →
      Scan sink (row :: rest) last
  | leaveSpan {sink last : TopKRows} {rest : List (Labels × LogEntry)} (span : List (Labels × LogEntry))
      (minTsNs maxTsNs : Int) : spanBeyondFrontier sink.frontierNs sink.forward minTsNs maxTsNs = true →
      (∀ row ∈ span, minTsNs ≤ row.2.timestampNs ∧ row.2.timestampNs ≤ maxTsNs) → Scan sink rest last →
      Scan sink (span ++ rest) last

theorem Holds.scan {last : TopKRows} {rest : List (Labels × LogEntry)} (h : sink.Holds limit forward rows)
    (hscan : Scan sink rest last) : last.Holds limit forward (rows ++ rest) := by
  induction hscan generalizing rows with
  | done sink => rwa [List.append_nil]
  | offer row _ ih =>
    rw [List.append_cons]
    exact ih (h.offer row)
  | leave row hbeyond _ ih =>
    rw [List.append_cons]
    exact ih (h.leave hbeyond)
  | leaveSpan span minTsNs maxTsNs hbeyond hbounds _ ih =>
    rw [← List.append_assoc]
    refine ih ?_
    clear ih
    induction span generalizing rows with
    | nil => rwa [List.append_nil]
    | cons row span ihspan =>
      obtain ⟨hmin, hmax⟩ := hbounds row List.mem_cons_self
      rw [List.append_cons]
      exact ihspan (fun other hother => hbounds other (List.mem_cons_of_mem row hother))
        (h.leave (beyond_of_span hbeyond hmin hmax))

/-- **A bounded result is a sort and a cut.** Whatever rows beyond the frontier of the moment a scan leaves out, a sink
ends with the first `limit` rows of the stable sort of the whole sequence in its direction. -/
theorem scan_intoRows {last : TopKRows} (h : Scan (new limit forward) rows last) :
    last.intoRows = (rows.insertionSort (InOrder forward)).take limit := by
  have hlast := (holds_new limit forward).scan h
  rw [List.nil_append] at hlast
  exact hlast.intoRows

/-- A row of a timestamp. -/
def rowAt (timestampNs : Int) (line : String) : Labels × LogEntry := (∅, ⟨timestampNs, line, []⟩)

/-- Two rows are kept of five, newest first: the tie with the frontier and the span behind it were never offered. -/
theorem scan_intoRows_skipping :
    ((((new 2 false).offer ∅ ⟨7, "a", []⟩).offer ∅ ⟨5, "b", []⟩).offer ∅ ⟨9, "e", []⟩).intoRows =
      ([rowAt 7 "a", rowAt 5 "b", rowAt 5 "c", rowAt 3 "d", rowAt 9 "e"].insertionSort (InOrder false)).take 2 :=
  scan_intoRows <| .offer (rowAt 7 "a") <| .offer (rowAt 5 "b") <| .leave (rowAt 5 "c") (by decide) <|
    .leaveSpan [rowAt 3 "d"] 1 4 (by decide) (by decide) <| .offer (rowAt 9 "e") <| .done _

/-! ## The scan of the memtable -/

/-- Both buffers of a tenant in the query's direction. -/
def orderedEntries (forward : Bool) (inner flushing : List LogEntry) : List LogEntry :=
  let ordered := (inner ++ flushing).insertionSort fun a b => a.timestampNs ≤ b.timestampNs
  if forward then ordered else ordered.reverse

/-- The loop of `MemTable::scan_into`: `cancelled` is the flag as the loop reads it, `wanted` the range and the line
filters. The sink, and how many rows were looked at. -/
def scanInto (forward : Bool) (scanLimit : Option Nat) (cancelled : Nat → Bool) (wanted : LogEntry → Bool) :
    List LogEntry → TopKRows → Nat → TopKRows × Nat
  | [], sink, scanned => (sink, scanned)
  | entry :: entries, sink, scanned =>
    if cancelled scanned || beyondFrontier sink.frontierNs forward entry.timestampNs || scanLimit.any (· ≤ scanned) then
      (sink, scanned)
    else
      scanInto forward scanLimit cancelled wanted entries (if wanted entry then sink.offer ∅ entry else sink)
        (scanned + 1)

/-- `MemTable::scan_into` over the two buffers of a tenant. -/
def scanMemTable (forward : Bool) (scanLimit : Option Nat) (cancelled : Nat → Bool) (wanted : LogEntry → Bool)
    (inner flushing : List LogEntry) (sink : TopKRows) : TopKRows × Nat :=
  if sink.isClosed then (sink, 0)
  else scanInto forward scanLimit cancelled wanted (orderedEntries forward inner flushing) sink 0

/-- The rows of a scan that was not cut short. -/
def wantedRows (wanted : LogEntry → Bool) (entries : List LogEntry) : List (Labels × LogEntry) :=
  (entries.filter wanted).map fun entry => (∅, entry)

/-- Oldest first. -/
abbrev Older (a b : LogEntry) : Prop := a.timestampNs ≤ b.timestampNs

instance total_older : Std.Total Older := ⟨fun a b => le_total a.timestampNs b.timestampNs⟩

instance trans_older : IsTrans LogEntry Older := ⟨fun _ _ _ => le_trans⟩

theorem pairwise_orderedEntries (forward : Bool) (inner flushing : List LogEntry) :
    (orderedEntries forward inner flushing).Pairwise fun a b => InOrder forward (∅, a) (∅, b) := by
  have hsorted : ((inner ++ flushing).insertionSort Older).Pairwise Older := List.pairwise_insertionSort _ _
  cases forward with
  | true => exact hsorted
  | false => exact List.pairwise_reverse.mpr hsorted

theorem forward_offer (sink : TopKRows) (labels : Labels) (entry : LogEntry) :
    (sink.offer labels entry).forward = sink.forward := by
  rw [offer]
  split
  · rfl
  · dsimp only
    split <;> split <;> rfl

/-- Once a row is beyond the frontier, so are the rows behind it. -/
theorem beyond_of_inOrder {frontier : Option Int} {a b : LogEntry} (h : InOrder forward (∅, a) (∅, b))
    (hbeyond : beyondFrontier frontier forward a.timestampNs = true) :
    beyondFrontier frontier forward b.timestampNs = true := by
  cases frontier with
  | none => exact hbeyond
  | some frontier =>
    cases forward with
    | true => exact decide_eq_true (le_trans (show frontier ≤ a.timestampNs from of_decide_eq_true hbeyond) h)
    | false => exact decide_eq_true (le_trans (show b.timestampNs ≤ a.timestampNs from h) (of_decide_eq_true hbeyond))

theorem scan_of_beyond {wanted : LogEntry → Bool} {entries : List LogEntry}
    (h : ∀ entry ∈ entries, beyondFrontier sink.frontierNs sink.forward entry.timestampNs = true) :
    Scan sink (wantedRows wanted entries) sink := by
  induction entries with
  | nil => exact .done sink
  | cons entry entries ih =>
    have hrest := ih fun other hother => h other (List.mem_cons_of_mem entry hother)
    rw [wantedRows, List.filter_cons]
    split
    · exact .leave (∅, entry) (h entry List.mem_cons_self) hrest
    · exact hrest

/-- The loop leaves out nothing that could have entered the result. -/
theorem scan_scanInto {wanted : LogEntry → Bool} {entries : List LogEntry} (hforward : sink.forward = forward)
    (hsorted : entries.Pairwise fun a b => InOrder forward (∅, a) (∅, b)) (scanned : Nat) :
    Scan sink (wantedRows wanted entries) (scanInto forward none (fun _ => false) wanted entries sink scanned).1 := by
  induction entries generalizing sink scanned with
  | nil => exact .done sink
  | cons entry entries ih =>
    obtain ⟨hentry, hrest⟩ := List.pairwise_cons.mp hsorted
    rw [scanInto, Bool.false_or, Option.any_none, Bool.or_false]
    split
    next hbeyond =>
      refine scan_of_beyond fun other hother => ?_
      rw [hforward]
      rcases List.mem_cons.mp hother with rfl | hother
      · exact hbeyond
      · exact beyond_of_inOrder (hentry other hother) hbeyond
    next =>
      rw [wantedRows, List.filter_cons]
      split
      · exact .offer (∅, entry) (ih (by rw [forward_offer, hforward]) hrest _)
      · exact ih hforward hrest _

/-- The matching rows of both buffers, the live one first, sorted by time; rows of one time stay as they came. -/
def sortedMatches (wanted : LogEntry → Bool) (inner flushing : List LogEntry) : List LogEntry :=
  ((inner ++ flushing).filter wanted).insertionSort Older

/--
**A limited query of the memtable** returns the oldest matching rows of both buffers, oldest first, or the newest,
newest first. Among rows of one time the query for the oldest takes those first that came first, and the other one those
that came last.
-/
theorem scanMemTable_intoRows (wanted : LogEntry → Bool) (limit : Nat) (forward : Bool)
    (inner flushing : List LogEntry) :
    (scanMemTable forward none (fun _ => false) wanted inner flushing (new limit forward)).1.intoRows =
      ((if forward then sortedMatches wanted inner flushing else (sortedMatches wanted inner flushing).reverse).take
        limit).map fun entry => (∅, entry) := by
  have hsorted := pairwise_orderedEntries forward inner flushing
  have hmatches : (orderedEntries forward inner flushing).filter wanted =
      if forward then sortedMatches wanted inner flushing else (sortedMatches wanted inner flushing).reverse := by
    simp only [orderedEntries, sortedMatches, insertionSort_filter]
    cases forward with
    | true => rfl
    | false => exact List.filter_reverse
  rw [scanMemTable]
  split
  next hclosed =>
    rw [show limit = 0 from of_decide_eq_true hclosed, List.take_zero]
    rfl
  next =>
    have hlast := (holds_new limit forward).scan (@scan_scanInto forward (new limit forward) wanted _ rfl hsorted 0)
    have hrows : (wantedRows wanted (orderedEntries forward inner flushing)).Pairwise (InOrder forward) :=
      List.pairwise_map.mpr (hsorted.filter wanted)
    rw [hlast.intoRows, List.nil_append, hrows.insertionSort_eq, wantedRows, hmatches, ← List.map_take]

/-- Two rows of one time: the query for the newest row takes the one of the other buffer. -/
example : (scanMemTable false none (fun _ => false) (fun _ => true) [⟨5, "a", []⟩] [⟨5, "b", []⟩]
  (new 1 false)).1.intoRows =
    [rowAt 5 "b"] := by
  decide

end TopKRows

end Signy
