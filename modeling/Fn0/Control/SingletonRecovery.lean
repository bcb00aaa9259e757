/-
The recovery of websocket singletons (control/rs/src/actions/cron_on_tick.rs): a tick goes through the declarations of
the active projects from where the last one stopped, up to 64 projects and 256 declarations, and leaves a cursor.

What is done at a declaration, to see whether its connection has to be made again, does not matter here: a tick is the
declarations it visits and the cursor it saves. Manifests and declarations change between ticks as they like.
-/
import Fn0.Lib.OrdMap
import Fn0.Lib.Sweep

namespace Control.SingletonRecovery

open Std (ExtTreeMap)

def staticCacheStateActive : String := "active"

def projectLimit : Nat := 64

def declarationLimit : Nat := 256

structure ManifestEntry where
  staticCacheState : String
  codeVersion : Nat

/-- `WebSocketSingletonConfigDoc`: the ids that a version of a project declares. -/
structure Config (σ : Type) where
  declarations : List σ
  distinct : declarations.Nodup

/-- What a tick finds. -/
structure World (π σ : Type) [LinearOrder π] where
  manifest : Option (ExtTreeMap π ManifestEntry compare)
  config : π → Nat → Option (Config σ)
  /-- the config or the runtime records of a project cannot be read -/
  scanFails : π → Bool

/-- `WebSocketSingletonReconcileCursorDoc`. -/
structure Cursor (π σ : Type) where
  afterProjectId : Option π
  afterSingletonId : Option σ
deriving DecidableEq

variable {π σ : Type} [LinearOrder π] [LinearOrder σ]

/-- Before everything, and after everything. -/
def Cursor.start : Cursor π σ := ⟨none, none⟩

/-- A project with a singleton after the cursor is not finished. -/
def Cursor.reaches (cursor : Cursor π σ) (projectId : π) : Bool :=
  match cursor.afterProjectId with
  | some after => if cursor.afterSingletonId.isSome then after ≤ projectId else after < projectId
  | none => true

def projectIdsAfterCursor (projectIds : List π) (cursor : Cursor π σ) : List π := projectIds.filter cursor.reaches

def declarationsAfterCursor (declarations : List σ) (after : Option σ) : List σ :=
  declarations.filter fun declaration => after.all (· < declaration)

/-- How far a tick has come. -/
structure Walk (π σ : Type) where
  scanned : Nat
  checkpoint : Cursor π σ
  visits : List (π × σ)

/-- The declarations of a project, and whether all of them were visited. -/
def walkDeclarations (projectId : π) : List σ → Walk π σ → Walk π σ × Bool
  | [], walk => (walk, true)
  | declaration :: declarations, walk =>
    if walk.scanned ≥ declarationLimit then (walk, false)
    else
      walkDeclarations projectId declarations
        ⟨walk.scanned + 1, ⟨some projectId, some declaration⟩, walk.visits ++ [(projectId, declaration)]⟩

section Tick

variable (world : World π σ) (manifest : ExtTreeMap π ManifestEntry compare) (cursor : Cursor π σ)

/-- The ids that a project declares, in order. -/
def sortedDeclarations (projectId : π) (codeVersion : Nat) : List σ :=
  (((world.config projectId codeVersion).map (·.declarations)).getD []).insertionSort (· ≤ ·)

def resumeSingleton (projectId : π) : Option σ :=
  if cursor.afterProjectId = some projectId then cursor.afterSingletonId else none

/-- The projects from one on, and the cursor that is saved. -/
def walkProjects : Nat → List π → Walk π σ → Cursor π σ × Walk π σ
  | _, [], walk => (.start, walk)
  | index, projectId :: projectIds, walk =>
    if index ≥ projectLimit || walk.scanned ≥ declarationLimit then (walk.checkpoint, walk)
    else
      match manifest[projectId]? with
      | none => walkProjects (index + 1) projectIds walk
      | some entry =>
        if entry.staticCacheState ≠ staticCacheStateActive || world.scanFails projectId then
          walkProjects (index + 1) projectIds { walk with checkpoint := ⟨some projectId, none⟩ }
        else
          let declarations := declarationsAfterCursor (sortedDeclarations world projectId entry.codeVersion)
            (resumeSingleton cursor projectId)
          match walkDeclarations projectId declarations walk with
          | (walk, true) => walkProjects (index + 1) projectIds { walk with checkpoint := ⟨some projectId, none⟩ }
          | (walk, false) => (walk.checkpoint, walk)

end Tick

/-- `recover_expired_websocket_singletons_with`. -/
def tick (world : World π σ) (cursor : Cursor π σ) : Cursor π σ × List (π × σ) :=
  match world.manifest with
  | none => (cursor, [])
  | some manifest =>
    match projectIdsAfterCursor (manifest.toList.map Prod.fst) cursor with
    | [] => (.start, [])
    | projectIds =>
      let (saved, walk) := walkProjects world manifest cursor 0 projectIds ⟨0, cursor, []⟩
      (saved, walk.visits)

/-- The ticks of a cycle: from a cursor until it is back at the start, each in its own world. -/
inductive Cycle : Cursor π σ → List (World π σ) → List (π × σ) → Prop
  | last {cursor : Cursor π σ} {world : World π σ} {visits : List (π × σ)} (h : tick world cursor = (.start, visits)) :
      Cycle cursor [world] visits
  | next {cursor cursor' : Cursor π σ} {world : World π σ} {worlds : List (World π σ)} {visits visits' : List (π × σ)}
      (h : tick world cursor = (cursor', visits)) (hne : cursor' ≠ .start) (later : Cycle cursor' worlds visits') :
      Cycle cursor (world :: worlds) (visits ++ visits')

/-! ## What there is to visit -/

/-- The ids of a project that a tick without errors visits. -/
def declared (world : World π σ) (manifest : ExtTreeMap π ManifestEntry compare) (projectId : π) : List σ :=
  match manifest[projectId]? with
  | none => []
  | some entry =>
    if entry.staticCacheState = staticCacheStateActive then sortedDeclarations world projectId entry.codeVersion else []

/-- Every declaration of every active project. -/
def World.items (world : World π σ) : List (π × σ) :=
  (world.manifest.map fun manifest => (manifest.toList.map Prod.fst).flatMap fun projectId =>
    (declared world manifest projectId).map (projectId, ·)).getD []

/-! ## What a tick visits -/

section Visits

variable (world : World π σ) (manifest : ExtTreeMap π ManifestEntry compare) (cursor : Cursor π σ)

/-- What is left of a project after a cursor. -/
def pendingOf (projectId : π) : List σ :=
  declarationsAfterCursor (declared world manifest projectId) (resumeSingleton cursor projectId)

def itemsFrom (projectIds : List π) : List (π × σ) :=
  projectIds.flatMap fun projectId => (pendingOf world manifest cursor projectId).map (projectId, ·)

/-- What is left after a cursor. -/
def pending : List (π × σ) :=
  itemsFrom world manifest cursor (projectIdsAfterCursor (manifest.toList.map Prod.fst) cursor)

end Visits

/-- The cursor after some declarations of a project. -/
def afterDeclarations (projectId : π) (checkpoint : Cursor π σ) (declarations : List σ) : Cursor π σ :=
  (declarations.getLast?.map fun last => ⟨some projectId, some last⟩).getD checkpoint

/-- The cursor after some projects. -/
def afterProjects (checkpoint : Cursor π σ) (projectIds : List π) : Cursor π σ :=
  (projectIds.getLast?.map fun last => ⟨some last, none⟩).getD checkpoint

omit [LinearOrder π] [LinearOrder σ] in
theorem afterDeclarations_cons (projectId : π) (checkpoint : Cursor π σ) (declaration : σ) (declarations : List σ) :
    afterDeclarations projectId checkpoint (declaration :: declarations) =
      afterDeclarations projectId ⟨some projectId, some declaration⟩ declarations := by
  rw [afterDeclarations, List.getLast?_cons, afterDeclarations]
  cases declarations.getLast? <;> rfl

omit [LinearOrder π] [LinearOrder σ] in
theorem afterProjects_cons (checkpoint : Cursor π σ) (projectId : π) (projectIds : List π) :
    afterProjects checkpoint (projectId :: projectIds) = afterProjects ⟨some projectId, none⟩ projectIds := by
  rw [afterProjects, List.getLast?_cons, afterProjects]
  cases projectIds.getLast? <;> rfl

omit [LinearOrder π] [LinearOrder σ] in
/-- All declarations of a project are visited, or as many as the limit lets. -/
theorem walkDeclarations_cases (projectId : π) (declarations : List σ) (walk : Walk π σ) :
    (∃ checkpoint, walkDeclarations projectId declarations walk =
        (⟨walk.scanned + declarations.length, checkpoint, walk.visits ++ declarations.map (projectId, ·)⟩, true)) ∨
      ∃ done rest, declarations = done ++ rest ∧ declarationLimit ≤ walk.scanned + done.length ∧
        walkDeclarations projectId declarations walk =
          (⟨walk.scanned + done.length, afterDeclarations projectId walk.checkpoint done,
            walk.visits ++ done.map (projectId, ·)⟩, false) := by
  induction declarations generalizing walk with
  | nil => exact .inl ⟨walk.checkpoint, by simp [walkDeclarations]⟩
  | cons declaration declarations ih =>
    rw [walkDeclarations]
    split
    next hlimit => exact .inr ⟨[], _, rfl, hlimit, by simp [afterDeclarations]⟩
    next =>
      rcases ih ⟨walk.scanned + 1, ⟨some projectId, some declaration⟩, walk.visits ++ [(projectId, declaration)]⟩ with
        ⟨checkpoint, heq⟩ | ⟨done, rest, rfl, hlimit, heq⟩
      · refine .inl ⟨checkpoint, ?_⟩
        rw [heq]
        simp [Nat.add_assoc, Nat.add_comm 1]
      · refine .inr ⟨declaration :: done, rest, rfl, ?_, ?_⟩
        · simp only [List.length_cons] at hlimit ⊢
          omega
        · rw [heq, afterDeclarations_cons]
          simp [Nat.add_assoc, Nat.add_comm 1]

section Walk

variable {world : World π σ} {manifest : ExtTreeMap π ManifestEntry compare} {cursor : Cursor π σ}

theorem itemsFrom_append (ids ids' : List π) :
    itemsFrom world manifest cursor (ids ++ ids') = itemsFrom world manifest cursor ids ++ itemsFrom
      world manifest cursor ids' :=
  List.flatMap_append

theorem itemsFrom_cons (id : π) (ids : List π) : itemsFrom world manifest cursor (id :: ids) =
    (pendingOf world manifest cursor id).map (id, ·) ++ itemsFrom world manifest cursor ids := List.flatMap_cons

/-- How a tick goes through projects: to the end, up to a project, or into one. -/
inductive Walked (world : World π σ) (manifest : ExtTreeMap π ManifestEntry compare) (cursor : Cursor π σ) (index : Nat)
    (walk : Walk π σ) : List π → Cursor π σ → List (π × σ) → Prop
  | ended {ids : List π} : Walked world manifest cursor index walk ids .start
      (walk.visits ++ itemsFrom world manifest cursor ids)
  | before (done : List π) (id : π) (rest : List π)
      (hlimit : projectLimit ≤ index + done.length ∨
        declarationLimit ≤ walk.scanned + (itemsFrom world manifest cursor done).length) :
      Walked world manifest cursor index walk (done ++ id :: rest) (afterProjects walk.checkpoint done)
        (walk.visits ++ itemsFrom world manifest cursor done)
  | within (done : List π) (id : π) (rest : List π) (visited : List σ) (last : σ) (left : List σ)
      (hpending : pendingOf world manifest cursor id = visited ++ last :: left)
      (hlimit : declarationLimit ≤ walk.scanned + (itemsFrom world manifest cursor done).length +
        (visited.length + 1)) :
      Walked world manifest cursor index walk (done ++ id :: rest) ⟨some id, some last⟩
        (walk.visits ++ itemsFrom world manifest cursor done ++ (visited ++ [last]).map (id, ·))

/-- One project more in front. -/
theorem Walked.cons {index : Nat} {walk walk' : Walk π σ} {id : π} {ids : List π} {saved : Cursor π σ}
    {visits : List (π × σ)}
    (h : Walked world manifest cursor (index + 1) walk' ids saved visits)
    (hscanned : walk'.scanned = walk.scanned + (pendingOf world manifest cursor id).length)
    (hcheckpoint : walk'.checkpoint = ⟨some id, none⟩)
    (hvisits : walk'.visits = walk.visits ++ (pendingOf world manifest cursor id).map (id, ·)) :
    Walked world manifest cursor index walk (id :: ids) saved visits := by
  cases h with
  | ended =>
    rw [hvisits, List.append_assoc, ← itemsFrom_cons]
    exact .ended
  | before done next rest hlimit =>
    rw [hvisits, List.append_assoc, ← itemsFrom_cons, hcheckpoint, ← afterProjects_cons walk.checkpoint]
    refine .before (id :: done) next rest ?_
    rw [itemsFrom_cons, List.length_append, List.length_map, List.length_cons]
    omega
  | within done next rest visited last left hpending hlimit =>
    rw [hvisits, List.append_assoc walk.visits, ← itemsFrom_cons]
    refine .within (id :: done) next rest visited last left hpending ?_
    rw [itemsFrom_cons, List.length_append, List.length_map]
    omega

theorem walked (hfree : ∀ id, world.scanFails id = false) (ids : List π)
    (hids : ∀ id ∈ ids, manifest[id]?.isSome = true)
    (index : Nat) (walk : Walk π σ) : Walked world manifest cursor index walk ids
      (walkProjects world manifest cursor index ids walk).1
      (walkProjects world manifest cursor index ids walk).2.visits := by
  induction ids generalizing index walk with
  | nil =>
    have hended : Walked world manifest cursor index walk [] .start
      (walk.visits ++ itemsFrom world manifest cursor []) := .ended
    rwa [show itemsFrom world manifest cursor [] = [] from rfl, List.append_nil] at hended
  | cons id ids ih =>
    obtain ⟨hid, hids⟩ := List.forall_mem_cons.mp hids
    obtain ⟨entry, hentry⟩ := Option.isSome_iff_exists.mp hid
    rw [walkProjects]
    split
    next hlimit =>
      rw [Bool.or_eq_true, decide_eq_true_iff, decide_eq_true_iff] at hlimit
      have hbefore : Walked world manifest cursor index walk ([] ++ id :: ids) _ _ := .before [] id ids hlimit
      rwa [show itemsFrom world manifest cursor [] = [] from rfl, List.append_nil] at hbefore
    next hlimit =>
      rw [Bool.or_eq_true, decide_eq_true_iff, decide_eq_true_iff, not_or] at hlimit
      rw [hentry]
      dsimp only
      rw [hfree, Bool.or_false]
      split
      next hinactive =>
        have hnone : pendingOf world manifest cursor id = [] := by
          rw [pendingOf, declared, hentry]
          dsimp only
          rw [if_neg (of_decide_eq_true hinactive)]
          rfl
        exact (ih hids _ _).cons (by rw [hnone]; rfl) rfl (by rw [hnone]; exact (List.append_nil _).symm)
      next hactive =>
        have hpending : declarationsAfterCursor (sortedDeclarations world id entry.codeVersion)
          (resumeSingleton cursor id) =
            pendingOf world manifest cursor id := by
          rw [pendingOf, declared, hentry]
          dsimp only
          rw [if_pos (by simpa using hactive)]
        rw [hpending]
        rcases walkDeclarations_cases id (pendingOf world manifest cursor id) walk with
          ⟨checkpoint, heq⟩ | ⟨done, left, hsplit, hle, heq⟩
        · rw [heq]
          exact (ih hids _ _).cons rfl rfl rfl
        · rw [heq]
          dsimp only
          rcases List.eq_nil_or_concat' done with rfl | ⟨visited, last, rfl⟩
          · exact absurd hle hlimit.2
          · rw [List.append_assoc, List.singleton_append] at hsplit
            have hwithin : Walked world manifest cursor index walk ([] ++ id :: ids) _ _ :=
              .within [] id ids visited last left hsplit (by simpa [itemsFrom, Nat.add_assoc] using hle)
            rw [show itemsFrom world manifest cursor [] = [] from rfl, List.append_nil] at hwithin
            rw [afterDeclarations, List.getLast?_concat]
            exact hwithin

end Walk

/-! ## The order of a walk -/

section Order

variable {α : Type} [LinearOrder α]

/-- What comes after the last of the first part is the second part. -/
theorem filter_lt_of_sorted {front back : List α} {last : α} (h : (front ++ last :: back).Pairwise (· < ·)) :
    (front ++ last :: back).filter (last < ·) = back := by
  rw [List.pairwise_append, List.pairwise_cons] at h
  obtain ⟨-, ⟨hback, -⟩, hfront⟩ := h
  rw [List.filter_append, List.filter_cons_of_neg (by simp),
    List.filter_eq_nil_iff.mpr fun a ha => by simpa using (hfront a ha last List.mem_cons_self).le,
    List.filter_eq_self.mpr fun a ha => by simpa using hback a ha, List.nil_append]

theorem filter_le_of_sorted {front back : List α} {first : α} (h : (front ++ first :: back).Pairwise (· < ·)) :
    (front ++ first :: back).filter (first ≤ ·) = first :: back := by
  rw [List.pairwise_append, List.pairwise_cons] at h
  obtain ⟨-, ⟨hback, -⟩, hfront⟩ := h
  rw [List.filter_append, List.filter_cons_of_pos (by simp),
    List.filter_eq_nil_iff.mpr fun a ha => by simpa using hfront a ha first List.mem_cons_self,
    List.filter_eq_self.mpr fun a ha => by simpa using (hback a ha).le, List.nil_append]

end Order

section Ticks

variable {world : World π σ} {manifest : ExtTreeMap π ManifestEntry compare} {cursor : Cursor π σ}

theorem projectIds_sorted (manifest : ExtTreeMap π ManifestEntry compare) :
    (manifest.toList.map Prod.fst).Pairwise (· < ·) := List.pairwise_map.mpr (OrdMap.toList_sorted manifest)

omit [LinearOrder π] in
theorem sortedDeclarations_sorted [LinearOrder π] (world : World π σ) (id : π) (codeVersion : Nat) :
    (sortedDeclarations world id codeVersion).Pairwise (· < ·) := by
  have hnodup : (((world.config id codeVersion).map (·.declarations)).getD []).Nodup := by
    cases world.config id codeVersion with
    | none => exact List.nodup_nil
    | some config => exact config.distinct
  have hnodup' := (List.perm_insertionSort (· ≤ ·) _).nodup_iff.mpr hnodup
  exact ((List.pairwise_insertionSort (· ≤ ·) _).and hnodup').imp fun h => lt_of_le_of_ne h.1 h.2

theorem declared_sorted (world : World π σ) (manifest : ExtTreeMap π ManifestEntry compare) (id : π) :
    (declared world manifest id).Pairwise (· < ·) := by
  rw [declared]
  split
  next => exact List.Pairwise.nil
  next =>
    split
    next => exact sortedDeclarations_sorted world id _
    next => exact List.Pairwise.nil

omit [LinearOrder σ] in
theorem Cursor.reaches_of_le {id id' : π} (h : cursor.reaches id = true) (hle : id ≤ id') :
    cursor.reaches id' = true := by
  obtain ⟨_ | after, _ | singleton⟩ := cursor
  · rfl
  · rfl
  · exact decide_eq_true ((of_decide_eq_true h : after < id).trans_le hle)
  · exact decide_eq_true ((of_decide_eq_true h : after ≤ id).trans hle)

omit [LinearOrder σ] in
/-- Only the first project that a cursor lets through is resumed. -/
theorem resumeSingleton_of_lt {id id' : π} (h : cursor.reaches id = true) (hlt : id < id') :
    resumeSingleton cursor id' = none := by
  rw [resumeSingleton]
  split
  next hafter =>
    obtain ⟨_ | after, _ | singleton⟩ := cursor
    · rfl
    · cases hafter
    · rfl
    · cases hafter
      exact absurd (of_decide_eq_true h : id' ≤ id) (not_le.mpr hlt)
  next => rfl

theorem pendingOf_of_resume {id : π} (h : resumeSingleton cursor id = none) :
    pendingOf world manifest cursor id = declared world manifest id := by
  rw [pendingOf, h, declarationsAfterCursor]
  exact List.filter_eq_self.mpr fun _ _ => rfl

omit [LinearOrder π] [LinearOrder σ] in
theorem filter_filter_of_imp {α : Type} {p q : α → Bool} (h : ∀ a, p a = true → q a = true) (l : List α) :
    (l.filter q).filter p = l.filter p := by
  rw [List.filter_filter]
  refine List.filter_congr fun a _ => ?_
  cases hp : p a with
  | false => rfl
  | true => rw [h a hp]; rfl

/-- Later projects are whole after both cursors. -/
theorem itemsFrom_congr {cursor' : Cursor π σ} {id : π} {ids : List π} (hid : cursor.reaches id = true)
    (hid' : ∀ other, id < other → resumeSingleton cursor' other = none) (hlt : ∀ other ∈ ids, id < other) :
    itemsFrom world manifest cursor' ids = itemsFrom world manifest cursor ids := by
  rw [itemsFrom, itemsFrom]
  refine List.flatMap_congr fun other hm => ?_
  rw [pendingOf_of_resume (hid' other (hlt other hm)), pendingOf_of_resume (resumeSingleton_of_lt hid (hlt other hm))]

variable {done rest : List π} {id : π}

omit [LinearOrder σ] in
theorem sorted_after (h : projectIdsAfterCursor (manifest.toList.map Prod.fst) cursor = done ++ id :: rest) :
    (done ++ id :: rest).Pairwise (· < ·) ∧ cursor.reaches id = true := by
  rw [← h]
  refine ⟨(projectIds_sorted manifest).filter _, ?_⟩
  have hm : id ∈ projectIdsAfterCursor (manifest.toList.map Prod.fst) cursor := by
    rw [h]
    exact List.mem_append_right _ List.mem_cons_self
  exact (List.mem_filter.mp hm).2

/-- A walk that stops after a project leaves those after it. -/
theorem pending_before (world : World π σ)
    (h : projectIdsAfterCursor (manifest.toList.map Prod.fst) cursor = done ++ id :: rest) :
    projectIdsAfterCursor (manifest.toList.map Prod.fst) (⟨some id, none⟩ : Cursor π σ) = rest ∧
      pending world manifest ⟨some id, none⟩ = itemsFrom world manifest cursor rest := by
  obtain ⟨hsorted, hid⟩ := sorted_after h
  have hids : projectIdsAfterCursor (manifest.toList.map Prod.fst) (⟨some id, none⟩ : Cursor π σ) = rest := by
    rw [← filter_lt_of_sorted hsorted, ← h, projectIdsAfterCursor, projectIdsAfterCursor]
    refine (filter_filter_of_imp (fun other hlt => ?_) _).symm
    exact Cursor.reaches_of_le hid (of_decide_eq_true hlt : id < other).le
  refine ⟨hids, ?_⟩
  rw [pending, hids]
  refine itemsFrom_congr hid (fun other _ => ?_) fun other hm => ?_
  · rw [resumeSingleton]
    split <;> rfl
  · exact (List.pairwise_cons.mp (List.pairwise_append.mp hsorted).2.1).1 other hm

/-- A walk that stops within a project leaves the rest of it, and the projects after it. -/
theorem pending_within {visited left : List σ} {last : σ}
    (h : projectIdsAfterCursor (manifest.toList.map Prod.fst) cursor = done ++ id :: rest)
    (hpending : pendingOf world manifest cursor id = visited ++ last :: left) :
    projectIdsAfterCursor (manifest.toList.map Prod.fst) ⟨some id, some last⟩ = id :: rest ∧
      pending world manifest ⟨some id, some last⟩ = left.map (id, ·) ++ itemsFrom world manifest cursor rest := by
  obtain ⟨hsorted, hid⟩ := sorted_after h
  have hids : projectIdsAfterCursor (manifest.toList.map Prod.fst) ⟨some id, some last⟩ = id :: rest := by
    rw [← filter_le_of_sorted hsorted, ← h, projectIdsAfterCursor, projectIdsAfterCursor]
    refine (filter_filter_of_imp (fun other hle => ?_) _).symm
    exact Cursor.reaches_of_le hid (of_decide_eq_true hle : id ≤ other)
  have hleft : pendingOf world manifest ⟨some id, some last⟩ id = left := by
    have hsorted' : (visited ++ last :: left).Pairwise (· < ·) := by
      rw [← hpending]
      exact (declared_sorted world manifest id).filter _
    have hlast : (resumeSingleton cursor id).all (· < last) = true := by
      have hm : last ∈ pendingOf world manifest cursor id := by
        rw [hpending]
        exact List.mem_append_right _ List.mem_cons_self
      exact (List.mem_filter.mp hm).2
    rw [← filter_lt_of_sorted hsorted', ← hpending, pendingOf, pendingOf, declarationsAfterCursor,
      declarationsAfterCursor,
      resumeSingleton, if_pos rfl]
    refine (filter_filter_of_imp (fun other hlt => ?_) _).symm
    cases hresume : resumeSingleton cursor id with
    | none => rfl
    | some bound =>
      rw [hresume] at hlast
      exact decide_eq_true ((of_decide_eq_true hlast : bound < last).trans (of_decide_eq_true hlt))
  refine ⟨hids, ?_⟩
  rw [pending, hids, itemsFrom_cons, hleft]
  congr 1
  refine itemsFrom_congr hid (fun other hlt => ?_) fun other hm => ?_
  · rw [resumeSingleton, if_neg fun heq => hlt.ne (Option.some.inj heq)]
  · exact (List.pairwise_cons.mp (List.pairwise_append.mp hsorted).2.1).1 other hm

/-! ## A tick -/

/-- A declaration lies ahead of a cursor. -/
def Cursor.ahead (cursor : Cursor π σ) (item : π × σ) : Bool :=
  cursor.reaches item.1 && (resumeSingleton cursor item.1).all (· < item.2)

theorem items_eq (hm : world.manifest = some manifest) : world.items =
    (manifest.toList.map Prod.fst).flatMap fun id => (declared world manifest id).map (id, ·) := by
  rw [World.items, hm]
  rfl

/-- What is left after a cursor is what lies ahead of it. -/
theorem pending_eq_filter (hm : world.manifest = some manifest) :
    pending world manifest cursor = world.items.filter cursor.ahead := by
  rw [items_eq hm, pending, projectIdsAfterCursor, itemsFrom]
  induction manifest.toList.map Prod.fst with
  | nil => rfl
  | cons id ids ih =>
    have hproject : ((declared world manifest id).map (id, ·)).filter cursor.ahead =
        if cursor.reaches id then (pendingOf world manifest cursor id).map (id, ·) else [] := by
      rw [List.filter_map]
      cases hid : cursor.reaches id with
      | false => simp [Cursor.ahead, hid, Function.comp_def]
      | true => simp [Cursor.ahead, hid, Function.comp_def, pendingOf, declarationsAfterCursor]
    rw [List.flatMap_cons, List.filter_append, hproject, ← ih, List.filter_cons]
    cases cursor.reaches id with
    | false => rfl
    | true => rfl

theorem items_nodup (world : World π σ) : world.items.Nodup := by
  rw [World.items]
  cases world.manifest with
  | none => exact List.nodup_nil
  | some manifest =>
    refine List.nodup_flatMap.mpr ⟨fun id _ => ?_, (projectIds_sorted manifest).imp fun hlt => ?_⟩
    · have hnodup : (declared world manifest id).Nodup := (declared_sorted world manifest id).imp fun h => h.ne
      exact hnodup.map fun a b heq => (Prod.mk.inj heq).2
    · intro item hitem hitem'
      obtain ⟨_, -, rfl⟩ := List.mem_map.mp hitem
      obtain ⟨_, -, heq⟩ := List.mem_map.mp hitem'
      exact hlt.ne (Prod.mk.inj heq).1.symm

/-- What a tick without errors does: it visits all that is left, or a beginning of it that fills one of the limits. -/
inductive Ticked (world : World π σ) (manifest : ExtTreeMap π ManifestEntry compare) (cursor : Cursor π σ) :
    Cursor π σ × List (π × σ) → Prop
  | ended : Ticked world manifest cursor (.start, pending world manifest cursor)
  | stopped {cursor' : Cursor π σ} {visits : List (π × σ)} (hne : cursor' ≠ .start)
      (hahead : ∀ item, cursor'.ahead item = true → cursor.ahead item = true)
      (hpending : pending world manifest cursor = visits ++ pending world manifest cursor')
      (hfewer : (projectIdsAfterCursor (manifest.toList.map Prod.fst) cursor').length ≤
        (projectIdsAfterCursor (manifest.toList.map Prod.fst) cursor).length)
      (hlimit : (projectIdsAfterCursor (manifest.toList.map Prod.fst) cursor').length + projectLimit ≤
        (projectIdsAfterCursor (manifest.toList.map Prod.fst) cursor).length ∨ declarationLimit ≤ visits.length) :
      Ticked world manifest cursor (cursor', visits)

theorem ahead_of_before (hid : cursor.reaches id = true) (item : π × σ)
    (h : (⟨some id, none⟩ : Cursor π σ).ahead item = true) : cursor.ahead item = true := by
  have hlt : id < item.1 := of_decide_eq_true (Bool.and_eq_true_iff.mp h).1
  rw [Cursor.ahead, Cursor.reaches_of_le hid hlt.le, resumeSingleton_of_lt hid hlt]
  rfl

theorem ahead_of_within (hid : cursor.reaches id = true) {last : σ}
    (hlast : (resumeSingleton cursor id).all (· < last) = true)
    (item : π × σ) (h : (⟨some id, some last⟩ : Cursor π σ).ahead item = true) : cursor.ahead item = true := by
  obtain ⟨hle, hall⟩ := Bool.and_eq_true_iff.mp h
  have hle' : id ≤ item.1 := of_decide_eq_true hle
  rw [Cursor.ahead, Cursor.reaches_of_le hid hle', Bool.true_and]
  rcases hle'.eq_or_lt with heq | hlt
  · rw [resumeSingleton, if_pos (by rw [heq])] at hall
    rw [← heq]
    cases hresume : resumeSingleton cursor id with
    | none => rfl
    | some bound =>
      rw [hresume] at hlast
      exact decide_eq_true ((of_decide_eq_true hlast : bound < last).trans (of_decide_eq_true hall))
  · rw [resumeSingleton_of_lt hid hlt]
    rfl

theorem ticked (hm : world.manifest = some manifest) (hfree : ∀ id, world.scanFails id = false) (cursor : Cursor π σ) :
    Ticked world manifest cursor (tick world cursor) := by
  rw [tick, hm]
  dsimp only
  split
  next hnone =>
    have hpending : pending world manifest cursor = [] := by
      rw [pending, hnone]
      rfl
    rw [← hpending]
    exact .ended
  next ids hids =>
    have hkeys : ∀ id ∈ projectIdsAfterCursor (manifest.toList.map Prod.fst) cursor, manifest[id]?.isSome = true := by
      intro id hid
      obtain ⟨⟨_, entry⟩, hentry, rfl⟩ := List.mem_map.mp (List.mem_filter.mp hid).1
      rw [OrdMap.mem_toList.mp hentry]
      rfl
    have hwalked : Walked world manifest cursor 0 ⟨0, cursor, []⟩ _ _ _ := walked hfree _ hkeys 0 ⟨0, cursor, []⟩
    generalize walkProjects world manifest cursor 0 _ ⟨0, cursor, []⟩ = result at hwalked ⊢
    obtain ⟨saved, walk⟩ := result
    dsimp only at hwalked ⊢
    generalize hrest : projectIdsAfterCursor (manifest.toList.map Prod.fst) cursor = ids at hwalked
    generalize walk.visits = visits at hwalked ⊢
    cases hwalked with
    | ended =>
      rw [List.nil_append, ← hrest, ← pending]
      exact .ended
    | before done next rest hlimit =>
      rw [Nat.zero_add, Nat.zero_add] at hlimit
      rcases List.eq_nil_or_concat' done with rfl | ⟨front, last, rfl⟩
      · exact absurd hlimit (by simp [itemsFrom, projectLimit, declarationLimit])
      · have hsplit : projectIdsAfterCursor (manifest.toList.map Prod.fst) cursor = front ++ last :: next :: rest := by
          rw [hrest, List.append_assoc, List.singleton_append]
        obtain ⟨hids', hpending⟩ := pending_before world hsplit
        rw [afterProjects, List.getLast?_concat, List.nil_append]
        refine .stopped (fun h => by cases h) (ahead_of_before (sorted_after hsplit).2) ?_ ?_ ?_
        · rw [pending, hrest, itemsFrom_append]
          exact congrArg _ hpending.symm
        · rw [Option.map_some, Option.getD_some, hids', hrest, List.length_append]
          exact Nat.le_add_left _ _
        · refine hlimit.imp_left fun hlimit => ?_
          rw [Option.map_some, Option.getD_some, hids', hrest, List.length_append]
          omega
    | within done next rest visited last left hpending hlimit =>
      rw [Nat.zero_add] at hlimit
      obtain ⟨hids', hleft⟩ := pending_within hrest hpending
      have hlast : (resumeSingleton cursor next).all (· < last) = true := by
        have hm : last ∈ pendingOf world manifest cursor next := by
          rw [hpending]
          exact List.mem_append_right _ List.mem_cons_self
        exact (List.mem_filter.mp hm).2
      rw [List.nil_append]
      refine .stopped (fun h => by cases h) (ahead_of_within (sorted_after hrest).2 hlast) ?_ ?_ (.inr ?_)
      · rw [pending, hrest, itemsFrom_append, itemsFrom_cons, hpending, hleft]
        simp
      · rw [hids', hrest, List.length_append]
        exact Nat.le_add_left _ _
      · rw [List.length_append, List.length_map, List.length_append]
        exact hlimit

/-! ## Cycles -/

/-- What lies behind after a tick. -/
def behind (cursor' : Cursor π σ) (item : π × σ) : Prop := cursor' = .start ∨ cursor'.ahead item = false

theorem Ticked.stretch {cursor' : Cursor π σ} {visits : List (π × σ)} (hm : world.manifest = some manifest)
    (h : Ticked world manifest cursor (cursor', visits)) :
    Sweep.Stretch world.items (fun item => cursor.ahead item = false) (behind cursor') visits := by
  cases h with
  | ended =>
    rw [pending_eq_filter hm]
    refine ⟨fun _ _ => .inl rfl, (items_nodup world).filter _, fun item => ?_⟩
    rw [List.mem_filter, Bool.not_eq_false]
    exact ⟨fun h => ⟨h.1, h.2, .inl rfl⟩, fun h => ⟨h.1, h.2.1⟩⟩
  | stopped hne hahead hpending _ _ =>
    rw [pending_eq_filter hm, pending_eq_filter hm] at hpending
    have hnodup : (world.items.filter cursor.ahead).Nodup := (items_nodup world).filter _
    rw [hpending, List.nodup_append] at hnodup
    refine ⟨fun item hitem => .inr ?_, hnodup.1, fun item => ?_⟩
    · by_contra htrue
      rw [hahead item (Bool.eq_true_of_not_eq_false htrue)] at hitem
      cases hitem
    · have hmem : item ∈ world.items.filter cursor.ahead ↔ item ∈ visits ∨ item ∈ world.items.filter cursor'.ahead := by
        rw [hpending, List.mem_append]
      rw [List.mem_filter, List.mem_filter] at hmem
      rw [Bool.not_eq_false]
      constructor
      · intro hvisit
        obtain ⟨hitem, hitem'⟩ := hmem.mpr (.inl hvisit)
        refine ⟨hitem, hitem', .inr ?_⟩
        by_contra htrue
        exact hnodup.2.2 item hvisit item (List.mem_filter.mpr ⟨hitem, Bool.eq_true_of_not_eq_false htrue⟩) rfl
      · rintro ⟨hitem, hitem', hstart | hfalse⟩
        · exact absurd hstart hne
        · refine (hmem.mp ⟨hitem, hitem'⟩).resolve_right fun hboth => ?_
          rw [hfalse] at hboth
          cases hboth.2

/-- A tick without errors is a stretch over what is there. -/
theorem tick_stretch {cursor' : Cursor π σ} {visits : List (π × σ)} (hfree : ∀ id, world.scanFails id = false)
    (h : tick world cursor = (cursor', visits)) :
    Sweep.Stretch world.items (fun item => cursor.ahead item = false) (behind cursor') visits := by
  cases hm : world.manifest with
  | none =>
    rw [tick, hm] at h
    cases h
    rw [World.items, hm]
    exact ⟨fun _ hitem => .inr hitem, List.nodup_nil, fun item => ⟨fun h => (by cases h), fun h => (by cases h.1)⟩⟩
  | some manifest =>
    have hticked := ticked hm hfree cursor
    rw [h] at hticked
    exact hticked.stretch hm

theorem Cycle.stretches {worlds : List (World π σ)} {visits : List (π × σ)} (h : Cycle cursor worlds visits)
    (hfree : ∀ world ∈ worlds, ∀ id, world.scanFails id = false) :
    Sweep.Stretches (worlds.map World.items) (fun item => cursor.ahead item = false) (fun _ => True) visits := by
  induction h with
  | @last cursor world visits h =>
    obtain ⟨-, hnodup, hmem⟩ := tick_stretch (hfree world (List.mem_singleton_self _)) h
    have hstretch : Sweep.Stretch world.items (fun item => cursor.ahead item = false) (fun _ => True) visits := by
      refine ⟨fun _ _ => trivial, hnodup, fun item => (hmem item).trans ?_⟩
      exact ⟨fun h => ⟨h.1, h.2.1, trivial⟩, fun h => ⟨h.1, h.2.1, .inl rfl⟩⟩
    simpa using Sweep.Stretches.cons hstretch .nil
  | @next cursor cursor' world worlds visits visits' h hne later ih =>
    obtain ⟨hworld, hworlds⟩ := List.forall_mem_cons.mp hfree
    have hbehind (item : π × σ) : behind cursor' item ↔ cursor'.ahead item = false :=
      ⟨fun h => h.resolve_left hne, .inr⟩
    obtain ⟨hmono, hnodup, hmem⟩ := tick_stretch hworld h
    simp only [hbehind] at hmono hmem
    exact .cons ⟨hmono, hnodup, hmem⟩ (ih hworlds)

/-- In a world that does not change, a cycle visits what is left, within the limits. -/
theorem Cycle.visits_eq (hm : world.manifest = some manifest) (hfree : ∀ id, world.scanFails id = false) {n : Nat}
    {visits : List (π × σ)} (h : Cycle cursor (List.replicate n world) visits) :
    visits = pending world manifest cursor ∧
      n ≤ (projectIdsAfterCursor (manifest.toList.map Prod.fst) cursor).length / projectLimit +
        (pending world manifest cursor).length / declarationLimit + 1 := by
  generalize hworlds : List.replicate n world = worlds at h
  induction h generalizing n with
  | @last cursor world' visits h =>
    obtain ⟨rfl, hworld⟩ := List.eq_replicate_iff.mp hworlds.symm
    cases hworld world' (List.mem_singleton_self _)
    have hticked := ticked hm hfree cursor
    rw [h] at hticked
    cases hticked with
    | ended => exact ⟨rfl, Nat.le_add_left _ _⟩
    | stopped hne => exact absurd rfl hne
  | @next cursor cursor' world' worlds visits visits' h hne later ih =>
    obtain ⟨m, rfl⟩ : ∃ m, n = m + 1 := by
      cases n with
      | zero => cases hworlds
      | succ m => exact ⟨m, rfl⟩
    rw [List.replicate_succ, List.cons.injEq] at hworlds
    obtain ⟨rfl, hworlds⟩ := hworlds
    obtain ⟨hvisits, hm'⟩ := ih hworlds
    have hticked := ticked hm hfree cursor
    rw [h] at hticked
    cases hticked with
    | ended => exact absurd rfl hne
    | stopped _ _ hpending hfewer hlimit =>
      refine ⟨by rw [hpending, hvisits], ?_⟩
      rw [hpending, List.length_append]
      simp only [projectLimit, declarationLimit] at hm' hlimit ⊢
      omega

/-- A world that does not change has a cycle. -/
theorem exists_cycle (hm : world.manifest = some manifest) (hfree : ∀ id, world.scanFails id = false)
    (cursor : Cursor π σ) :
    ∃ n visits, Cycle cursor (List.replicate n world) visits := by
  generalize hsize : (projectIdsAfterCursor (manifest.toList.map Prod.fst) cursor).length +
    (pending world manifest cursor).length = size
  induction size using Nat.strong_induction_on generalizing cursor with
  | _ size ih =>
    have hticked := ticked hm hfree cursor
    generalize htick : tick world cursor = result at hticked
    cases hticked with
    | ended => exact ⟨1, _, .last htick⟩
    | @stopped cursor' visits hne hahead hpending hfewer hlimit =>
      have hlength := congrArg List.length hpending
      rw [List.length_append] at hlength
      have hsmaller : (projectIdsAfterCursor (manifest.toList.map Prod.fst) cursor').length +
          (pending world manifest cursor').length < size := by
        simp only [projectLimit, declarationLimit] at hlimit
        omega
      obtain ⟨n, visits', hcycle⟩ := ih _ hsmaller cursor' rfl
      exact ⟨n + 1, _, .next htick hne hcycle⟩

/-- **Recovery visits everything.** In a world that does not change, with no errors, a cycle ends, within as many ticks
as its projects and its declarations fill the limits and one more, and has visited each declaration of each active
project exactly once. In a world that changes from tick to tick, every declaration that is there at each tick of a cycle
is visited exactly once in it. -/
theorem recovery_visits_everything :
    (∀ (world : World π σ) manifest, world.manifest = some manifest → (∀ id, world.scanFails id = false) →
      (∃ n visits, Cycle .start (List.replicate n world) visits) ∧
        ∀ n visits, Cycle .start (List.replicate n world) visits →
          visits = world.items ∧ visits.Nodup ∧
            n ≤ manifest.size ⌈/⌉ projectLimit + world.items.length ⌈/⌉ declarationLimit + 1) ∧
      ∀ (worlds : List (World π σ)) visits, Cycle .start worlds visits →
        (∀ world ∈ worlds, ∀ id, world.scanFails id = false) →
        ∀ item, (∀ world ∈ worlds, item ∈ world.items) → visits.count item = 1 := by
  refine ⟨fun world manifest hm hfree => ⟨exists_cycle hm hfree .start, fun n visits hcycle => ?_⟩,
    fun worlds visits hcycle hfree item hitem => ?_⟩
  · obtain ⟨hvisits, hn⟩ := hcycle.visits_eq hm hfree
    have hall : pending world manifest .start = world.items := by
      rw [pending_eq_filter hm]
      exact List.filter_eq_self.mpr fun _ _ => rfl
    have hids : (projectIdsAfterCursor (manifest.toList.map Prod.fst) (.start : Cursor π σ)).length =
      manifest.size := by
      have hkeys : projectIdsAfterCursor (manifest.toList.map Prod.fst) (.start : Cursor π σ) =
          manifest.toList.map Prod.fst := List.filter_eq_self.mpr fun _ _ => rfl
      rw [hkeys, List.length_map, ExtTreeMap.length_toList]
    rw [hall] at hvisits hn
    rw [hids] at hn
    refine ⟨hvisits, hvisits ▸ items_nodup world, hn.trans ?_⟩
    rw [Nat.ceilDiv_eq_add_pred_div, Nat.ceilDiv_eq_add_pred_div, projectLimit, declarationLimit]
    omega
  · refine (hcycle.stretches hfree).count_eq_one (fun items hitems => ?_) (fun h => by cases h) trivial
    obtain ⟨world, hworld, rfl⟩ := List.mem_map.mp hitems
    exact hitem world hworld

end Ticks

/-- Active projects of which the first has 300 singletons and each other one has one. -/
def manyProjects : World Nat Nat where
  manifest := some (ExtTreeMap.ofList ((List.range 130).map fun id => (id, ⟨"active", 1⟩)) compare)
  config id _ := some ⟨List.range (if id = 0 then 300 else 1), List.nodup_range⟩
  scanFails _ := false

/-- The first tick stops within the first project, the next two after 64 projects each. -/
theorem recovery_visits_everything_many : ∃ visits, Cycle .start (List.replicate 4 manyProjects) visits ∧
    visits.Nodup ∧ visits.length = 429 ∧ (tick manyProjects .start).1 = ⟨some 0, some 255⟩ ∧
      (tick manyProjects ⟨some 0, some 255⟩).1 = ⟨some 63, none⟩ := by
  have hfirst : (tick manyProjects .start).1 = ⟨some 0, some 255⟩ := by decide +kernel
  have hsecond : (tick manyProjects ⟨some 0, some 255⟩).1 = ⟨some 63, none⟩ := by decide +kernel
  have hthird : (tick manyProjects ⟨some 63, none⟩).1 = ⟨some 127, none⟩ := by decide +kernel
  have hlast : (tick manyProjects ⟨some 127, none⟩).1 = .start := by decide +kernel
  have htick {result : Cursor Nat Nat × List (Nat × Nat)} {cursor} (h : result.1 = cursor) :
      result = (cursor, result.2) := Prod.ext h rfl
  have hcycle := Cycle.next (htick hfirst) (by decide) (.next (htick hsecond) (by decide)
    (.next (htick hthird) (by decide) (.last (htick hlast))))
  obtain ⟨hall, hnodup, -⟩ := (recovery_visits_everything.1 manyProjects _ rfl fun _ => rfl).2 4 _ hcycle
  exact ⟨_, hcycle, hnodup, by rw [hall]; decide +kernel, hfirst, hsecond⟩

end Control.SingletonRecovery
