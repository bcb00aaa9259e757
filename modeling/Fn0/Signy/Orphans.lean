/-
The collector of objects that no manifest names.

A pass walks the part prefixes from where the last pass stopped and writes down when it first saw an object outside
the manifests. It deletes what an earlier pass wrote down long enough ago. The deadline is the number of times the
clock is read before it passes; listing, saving and deleting may fail.
-/
import Mathlib
import Fn0.Lib.OrdMap
import Fn0.Lib.Steps
import Fn0.Lib.Track
import Fn0.Signy.ObjectStore

namespace Signy

open Std (ExtTreeMap)

def orphanPrefixes : List String := ["parts", "trace_parts", "metric_parts"]

/-! ## The ledger -/

structure OrphanLedgerEntry where
  firstSeen : Int
  lastSeenCycle : Nat
  bytes : Nat
deriving DecidableEq

structure OrphanScanCursor where
  prefixIndex : Nat
  after : Option String
  cycle : Nat
deriving DecidableEq

def OrphanScanCursor.first : OrphanScanCursor := ⟨0, none, 0⟩

def OrphanScanCursor.startNextCycle (cursor : OrphanScanCursor) : OrphanScanCursor := ⟨0, none, cursor.cycle + 1⟩

structure OrphanLedger where
  scan : OrphanScanCursor
  orphans : ExtTreeMap String OrphanLedgerEntry compare

def OrphanLedger.empty : OrphanLedger := ⟨.first, ∅⟩

/-- The size that is written down for a key. -/
def OrphanLedger.bytes (ledger : OrphanLedger) (key : String) : Nat :=
  match ledger.orphans[key]? with
  | some entry => entry.bytes
  | none => 0

/-- The ledger as it is stored. An old one has first sightings only, where a time that cannot be parsed is dropped. -/
inductive StoredOrphanLedger
  | current (ledger : OrphanLedger)
  | firstSightings (sightings : List (String × Option Int))

def StoredOrphanLedger.ledger : StoredOrphanLedger → OrphanLedger
  | current ledger => ledger
  | firstSightings sightings =>
    { OrphanLedger.empty with
      orphans := .ofList (sightings.filterMap fun (key, seen) => seen.map fun seen => (key, ⟨seen, 0, 0⟩)) compare }

/-- The objects under the part prefixes with their sizes, and the ledger beside them. -/
structure PartStore where
  objects : List (String × Nat)
  ledger : Option StoredOrphanLedger

def PartStore.loadOrphanLedger (store : PartStore) : OrphanLedger := (store.ledger.map (·.ledger)).getD .empty

/-- The objects under a prefix that come after a key, in the order of their keys. -/
def PartStore.list (store : PartStore) (kind : String) (after : Option String) : List (String × Nat) :=
  (store.objects.filter fun (key, _) => (kind ++ "/").toList <+: key.toList ∧ ∀ last ∈ after, last < key).mergeSort
    fun a b => a.1 ≤ b.1

/-- An object that a listing shows: its grace starts, goes on, or is over because a manifest names it. -/
def OrphanLedger.sight (ledger : OrphanLedger) (active : List String) (now : Int) (key : String) (size : Nat) :
    OrphanLedger :=
  ⟨{ ledger.scan with after := some key },
    if key ∈ active then ledger.orphans.erase key
    else
      match ledger.orphans[key]? with
      | some entry => ledger.orphans.insert key { entry with lastSeenCycle := ledger.scan.cycle, bytes := size }
      | none => ledger.orphans.insert key ⟨now, ledger.scan.cycle, size⟩⟩

/-- At the end of a cycle, entries that no listing touched are dropped. -/
def OrphanLedger.closeCycle (ledger : OrphanLedger) : OrphanLedger :=
  ⟨ledger.scan.startNextCycle, ledger.orphans.filter fun _ entry => entry.lastSeenCycle = ledger.scan.cycle⟩

/-- The keys that were written down before the cutoff and are in no manifest. -/
def OrphanLedger.deletable (ledger : OrphanLedger) (cutoff : Int) (active : List String) : List String :=
  (ledger.orphans.toList.filter fun (key, entry) => decide (entry.firstSeen < cutoff) && decide (key ∉ active)).map
    Prod.fst

/-! ## A pass -/

structure OrphanCollectionOptions where
  gracePeriodNs : Nat
  maxScannedObjects : Nat
  maxDeletedObjects : Nat
  maxDeletedBytes : Nat
  dryRun : Bool

structure OrphanCollection where
  scannedObjects : Nat := 0
  scanCyclesCompleted : Nat := 0
  candidateObjects : Nat := 0
  candidateBytes : Nat := 0
  deletedObjects : Nat := 0
  deletedBytes : Nat := 0
  deleteErrors : Nat := 0
  ledgerEntries : Nat := 0
deriving DecidableEq

inductive CollectError
  | catalogUnreadable
  | invalidGracePeriod
  | ledgerUnreadable
  | ledgerNotStored
  | listingFailed
  | gaveUp (failed : Nat)
deriving DecidableEq

/-- What happens to a pass from outside. -/
structure Conditions where
  /-- How often the clock is read before the deadline. -/
  reads : Nat
  catalogReadable : Bool
  ledgerReadable : Bool
  /-- How many objects are listed before the listing fails. -/
  listed : Option Nat
  /-- How the writes of the ledger end; those after the last are done. -/
  saves : List StoreOutcome
  /-- How the deletion of a key ends. -/
  deletion : String → StoreOutcome

structure PassState where
  store : PartStore
  ledger : OrphanLedger
  outcome : OrphanCollection
  scannedSinceSave : Nat
  reads : Nat
  listed : Option Nat
  saves : List StoreOutcome
  /-- The keys whose deletion took effect. -/
  deleted : List String

abbrev PassM (α : Type) : Type := Eff CollectError PassState α

def orphanLedgerSaveInterval : Nat := 20000

def orphanDeleteChunk : Nat := 1000

def orphanDeleteErrorLimit : Nat := 100

/-- The largest duration, in nanoseconds. -/
def maxDurationNs : Nat := 9223372036854775807 * 1000000

/-- Whether the deadline is still to come. -/
def beforeDeadline : PassM Bool := do
  let s ← get
  match s.reads with
  | 0 => return false
  | reads + 1 => do
    set { s with reads }
    return true

def storeOrphanLedger : PassM Unit := do
  let s ← get
  let stored := { s.store with ledger := some (.current s.ledger) }
  match s.saves with
  | [] => set { s with store := stored }
  | .done :: saves => set { s with store := stored, saves }
  | .failed :: saves => do
    set { s with saves }
    throw .ledgerNotStored
  | .lost :: saves => do
    set { s with store := stored, saves }
    throw .ledgerNotStored

def saveIfDue (due : Bool) : PassM Unit := if due then storeOrphanLedger else pure ()

inductive Scanned
  | exhausted
  | stopped
  | failed

section
variable (options : OrphanCollectionOptions) (active : List String) (now : Int)

/-- The objects of one listing. -/
def scanItems : List (String × Nat) → PassM Scanned
  | [] => do
    let s ← get
    return if s.listed = some 0 then .failed else .exhausted
  | (key, size) :: items => do
    let s ← get
    if s.listed = some 0 then return .failed
    else do
      set { s with
        ledger := s.ledger.sight active now key size
        outcome.scannedObjects := s.outcome.scannedObjects + 1
        scannedSinceSave := if orphanLedgerSaveInterval ≤ s.scannedSinceSave + 1 then 0 else s.scannedSinceSave + 1
        listed := s.listed.map (· - 1) }
      saveIfDue (orphanLedgerSaveInterval ≤ s.scannedSinceSave + 1)
      if options.maxScannedObjects ≤ s.outcome.scannedObjects + 1 then return .stopped
      else do
        let early ← beforeDeadline
        if early then scanItems items else return .stopped

/-- The prefixes that are left of the cycle; whether a listing failed. -/
def scanPrefixes : List String → PassM Bool
  | [] => do
    let s ← get
    if s.outcome.scannedObjects < options.maxScannedObjects then do
      let early ← beforeDeadline
      if early then do
        modify fun s => { s with
          ledger := s.ledger.closeCycle
          outcome.scanCyclesCompleted := s.outcome.scanCyclesCompleted + 1 }
        return false
      else return false
    else return false
  | kind :: kinds => do
    let s ← get
    if s.outcome.scannedObjects < options.maxScannedObjects then do
      let early ← beforeDeadline
      if early then do
        let scanned ← scanItems options active now (s.store.list kind s.ledger.scan.after)
        match scanned with
        | .failed => return true
        | .stopped => return false
        | .exhausted => do
          modify fun s => { s with ledger.scan := { s.ledger.scan with
            prefixIndex := s.ledger.scan.prefixIndex + 1, after := none } }
          scanPrefixes kinds
      else return false
    else return false

/-- The keys to delete within the budgets, after `taken` keys with `bytes` bytes. -/
def withinBudget (ledger : OrphanLedger) : Nat → Nat → List String → List String
  | _, _, [] => []
  | taken, bytes, key :: keys =>
    let size := ledger.bytes key
    if options.maxDeletedObjects ≤ taken ∨ (taken ≠ 0 ∧ options.maxDeletedBytes < bytes + size) then
      withinBudget ledger taken bytes keys
    else key :: withinBudget ledger (taken + 1) (bytes + size) keys

end

/-- One deletion. A key that is already gone is as good as deleted. -/
def deleteKey (deletion : String → StoreOutcome) (key : String) (s : PassState) : PassState :=
  let gone : PassState := { s with store.objects := s.store.objects.filter (·.1 ≠ key), deleted := s.deleted ++ [key] }
  match deletion key with
  | .done =>
    { gone with
      ledger.orphans := s.ledger.orphans.erase key
      outcome.deletedBytes := s.outcome.deletedBytes + s.ledger.bytes key
      outcome.deletedObjects := s.outcome.deletedObjects + 1 }
  | .failed => { s with outcome.deleteErrors := s.outcome.deleteErrors + 1 }
  | .lost => { gone with outcome.deleteErrors := s.outcome.deleteErrors + 1 }

/-- The keys in chunks. The clock is read before each, and too many failures end the deletions. -/
def deleteChunks (deletion : String → StoreOutcome) (keys : List String) : PassM Unit :=
  if keys = [] then pure ()
  else do
    let early ← beforeDeadline
    if early then do
      modify fun s => (keys.take orphanDeleteChunk).foldl (fun s key => deleteKey deletion key s) s
      let s ← get
      if orphanDeleteErrorLimit ≤ s.outcome.deleteErrors then pure ()
      else deleteChunks deletion (keys.drop orphanDeleteChunk)
    else pure ()
termination_by keys.length
decreasing_by
  have : 0 < keys.length := List.length_pos_iff.mpr ‹_›
  simp only [List.length_drop, orphanDeleteChunk]
  omega

def deleteOrphans (options : OrphanCollectionOptions) (deletion : String → StoreOutcome) (keys : List String) :
    PassM Unit :=
  if options.dryRun then pure () else deleteChunks deletion keys

def collectOrphansAt (options : OrphanCollectionOptions) (conditions : Conditions) (manifests : Manifests) (now : Int) :
    PassM OrphanCollection := do
  if ¬ conditions.catalogReadable then throw .catalogUnreadable
  else if maxDurationNs < options.gracePeriodNs then throw .invalidGracePeriod
  else if ¬ conditions.ledgerReadable then throw .ledgerUnreadable
  else do
    let active := manifests.activeObjectKeys
    let cutoff := now - options.gracePeriodNs
    let before ← get
    let ledger := before.store.loadOrphanLedger
    let deletable := ledger.deletable cutoff active
    set { before with ledger }
    let failed ← scanPrefixes options active now (orphanPrefixes.drop ledger.scan.prefixIndex)
    let s ← get
    set { s with
      outcome.candidateObjects := deletable.length
      outcome.candidateBytes := (deletable.map s.ledger.bytes).sum }
    deleteOrphans options conditions.deletion (withinBudget options s.ledger 0 0 deletable)
    modify fun s => { s with outcome.ledgerEntries := s.ledger.orphans.size }
    storeOrphanLedger
    let s ← get
    if failed then throw .listingFailed
    else if orphanDeleteErrorLimit ≤ s.outcome.deleteErrors then throw (.gaveUp s.outcome.deleteErrors)
    else return s.outcome

/-! ## Passes, uploads and commits -/

/-- The store and the manifests over time. -/
structure Gc where
  store : PartStore
  manifests : Manifests
  now : Int
  /-- When a key was last in a manifest. -/
  lastActive : String → Option Int
  /-- When the passes so far started. -/
  passes : List Int

namespace Gc

def start (objects : List (String × Nat)) (manifests : Manifests) (now : Int) : Gc :=
  ⟨⟨objects, none⟩, manifests, now, fun key => if key ∈ manifests.activeObjectKeys then some now else none, []⟩

/-- The keys that the manifests name are active now. -/
def seen (s : Gc) : Gc :=
  { s with lastActive := fun key => if key ∈ s.manifests.activeObjectKeys then some s.now else s.lastActive key }

/-- What a pass leaves. -/
def pass (s : Gc) (options : OrphanCollectionOptions) (conditions : Conditions) :
    Except CollectError OrphanCollection × PassState :=
  (collectOrphansAt options conditions s.manifests s.now).exec
    ⟨s.store, .empty, {}, 0, conditions.reads, conditions.listed, conditions.saves, []⟩

inductive Action
  | upload (key : String) (size : Nat)
  | commit (manifests : Manifests)
  | wait (ns : Nat)
  | collect (options : OrphanCollectionOptions) (conditions : Conditions)

def step (s : Gc) : Action → Option Gc
  | .upload key size =>
    some { s with store.objects := s.store.objects.filter (·.1 ≠ key) ++ [(key, size)] }
  | .commit manifests => some (seen { s with manifests })
  | .wait ns => some (seen { s with now := s.now + ns })
  | .collect options conditions =>
    some { s with store := (s.pass options conditions).2.store, passes := s.passes ++ [s.now] }

/-- **Out of grace.** The key is in no manifest, has been in none for at least the grace period, and an earlier pass
wrote it down. -/
structure OutOfGrace (s : Gc) (gracePeriodNs : Nat) (key : String) : Prop where
  inactive : key ∉ s.manifests.activeObjectKeys
  grace : ∀ last ∈ s.lastActive key, last + gracePeriodNs ≤ s.now
  recorded : ∃ entry, s.store.loadOrphanLedger.orphans[key]? = some entry ∧ entry.firstSeen ∈ s.passes

/-- A commit that takes a key out of the manifests finds no entry for it in the ledger. -/
def Unrecorded (s : Gc) : Action → Prop
  | .commit manifests => ∀ key ∈ s.manifests.activeObjectKeys, key ∉ manifests.activeObjectKeys →
      s.store.loadOrphanLedger.orphans[key]? = none
  | _ => True

instance (s : Gc) (action : Action) : Decidable (s.Unrecorded action) := by
  unfold Unrecorded
  split <;> infer_instance

end Gc

/-! ## What a pass writes down -/

/-- What the ledger says of a key when it was first seen. -/
def OrphanLedger.Says (ledger : OrphanLedger) (P : String → Int → Prop) : Prop :=
  ∀ key entry, ledger.orphans[key]? = some entry → P key entry.firstSeen

namespace OrphanLedger

variable {ledger : OrphanLedger} {P : String → Int → Prop}

theorem says_empty : OrphanLedger.empty.Says P := by
  intro key entry h
  simp [OrphanLedger.empty] at h

theorem Says.erase (h : ledger.Says P) (scan : OrphanScanCursor) (key : String) :
    OrphanLedger.Says ⟨scan, ledger.orphans.erase key⟩ P := by
  intro other entry ho
  rw [ExtTreeMap.getElem?_erase] at ho
  split at ho
  · cases ho
  · exact h other entry ho

theorem Says.insert (h : ledger.Says P) (scan : OrphanScanCursor) {key : String} {entry : OrphanLedgerEntry}
    (hentry : P key entry.firstSeen) : OrphanLedger.Says ⟨scan, ledger.orphans.insert key entry⟩ P := by
  intro other found ho
  rw [OrdMap.getElem?_insert] at ho
  split at ho
  next heq =>
    cases ho
    exact heq ▸ hentry
  · exact h other found ho

/-- An object that is seen outside the manifests was written down before, or is written down now. -/
theorem Says.sight {active : List String} {now : Int} {key : String} (h : ledger.Says P)
    (hnow : key ∉ active → P key now) (size : Nat) : (ledger.sight active now key size).Says P := by
  unfold OrphanLedger.sight
  split
  · exact h.erase _ key
  next hactive =>
    split
    next entry hentry => exact h.insert _ (h key entry hentry)
    · exact h.insert _ (hnow hactive)

theorem Says.closeCycle (h : ledger.Says P) : ledger.closeCycle.Says P := by
  intro key entry hentry
  unfold OrphanLedger.closeCycle at hentry
  rw [ExtTreeMap.getElem?_filter] at hentry
  exact h key entry (Option.eq_some_of_pfilter_eq_some hentry)

theorem Says.mono {P' : String → Int → Prop} (h : ledger.Says P) (hP : ∀ key seen, P key seen → P' key seen) :
    ledger.Says P' :=
  fun key entry hentry => hP key _ (h key entry hentry)

theorem mem_deletable {cutoff : Int} {active : List String} {key : String} (h : key ∈ ledger.deletable cutoff active) :
    key ∉ active ∧ ∃ entry, ledger.orphans[key]? = some entry ∧ entry.firstSeen < cutoff := by
  obtain ⟨⟨key, entry⟩, hmem, rfl⟩ := List.mem_map.mp h
  obtain ⟨hmem, hcheck⟩ := List.mem_filter.mp hmem
  simp only [Bool.and_eq_true, decide_eq_true_eq] at hcheck
  exact ⟨hcheck.2, entry, OrdMap.mem_toList.mp hmem, hcheck.1⟩

end OrphanLedger

/-! ## Passes -/

/-- What the ledgers of a pass say, and that only such keys are deleted. -/
structure PassState.Keeps (P : String → Int → Prop) (deletable : List String) (s : PassState) : Prop where
  ledger : s.ledger.Says P
  stored : s.store.loadOrphanLedger.Says P
  deleted : ∀ key ∈ s.deleted, key ∈ deletable

section
variable {P : String → Int → Prop} {deletable : List String} {options : OrphanCollectionOptions} {active : List String}
  {now : Int}

open Eff

theorem keeps_beforeDeadline : Keeps (PassState.Keeps P deletable) beforeDeadline := by
  refine keeps_get_bind fun s hs => ?_
  split
  · exact hs
  · exact ⟨hs.ledger, hs.stored, hs.deleted⟩

theorem keeps_storeOrphanLedger : Keeps (PassState.Keeps P deletable) storeOrphanLedger := by
  refine keeps_get_bind fun s hs => ?_
  dsimp only
  split
  · exact ⟨hs.ledger, hs.ledger, hs.deleted⟩
  · exact ⟨hs.ledger, hs.ledger, hs.deleted⟩
  · exact ⟨hs.ledger, hs.stored, hs.deleted⟩
  · exact ⟨hs.ledger, hs.ledger, hs.deleted⟩

theorem keeps_saveIfDue (due : Bool) : Keeps (PassState.Keeps P deletable) (saveIfDue due) := by
  unfold saveIfDue
  split
  · exact keeps_storeOrphanLedger
  · exact keeps_pure _

theorem keeps_scanItems (hnow : ∀ key, key ∉ active → P key now) (items : List (String × Nat)) :
    Keeps (PassState.Keeps P deletable) (scanItems options active now items) := by
  induction items with
  | nil => exact keeps_get_bind fun s hs => hs
  | cons item items ih =>
    obtain ⟨key, size⟩ := item
    refine keeps_get_bind fun s hs => ?_
    split
    · exact hs
    · refine sat_bind.mpr (sat_set.mpr ?_)
      refine (keeps_saveIfDue _).bind (fun _ => ?_) _ ⟨hs.ledger.sight (hnow key) size, hs.stored, hs.deleted⟩
      split
      · exact keeps_pure _
      · refine keeps_beforeDeadline.bind fun early => ?_
        split
        · exact ih
        · exact keeps_pure _

theorem keeps_scanPrefixes (hnow : ∀ key, key ∉ active → P key now) (kinds : List String) :
    Keeps (PassState.Keeps P deletable) (scanPrefixes options active now kinds) := by
  induction kinds with
  | nil =>
    refine keeps_get_bind fun s hs => ?_
    split
    · refine keeps_beforeDeadline.bind (fun early => ?_) s hs
      split
      · exact (keeps_modify fun s hs => ⟨hs.ledger.closeCycle, hs.stored, hs.deleted⟩).bind fun _ => keeps_pure _
      · exact keeps_pure _
    · exact hs
  | cons kind kinds ih =>
    refine keeps_get_bind fun s hs => ?_
    split
    · refine keeps_beforeDeadline.bind (fun early => ?_) s hs
      split
      · refine (keeps_scanItems hnow _).bind fun scanned => ?_
        split
        · exact keeps_pure _
        · exact keeps_pure _
        · exact (keeps_modify fun s hs => ⟨hs.ledger, hs.stored, hs.deleted⟩).bind fun _ => ih
      · exact keeps_pure _
    · exact hs

theorem withinBudget_subset (ledger : OrphanLedger) (keys : List String) (taken bytes : Nat) :
    withinBudget options ledger taken bytes keys ⊆ keys := by
  induction keys generalizing taken bytes with
  | nil => exact List.Subset.refl _
  | cons key keys ih =>
    rw [withinBudget]
    split
    · exact List.subset_cons_of_subset key (ih _ _)
    · exact List.cons_subset_cons key (ih _ _)

theorem PassState.Keeps.deleteKey {s : PassState} (h : s.Keeps P deletable) (deletion : String → StoreOutcome)
    {key : String} (hkey : key ∈ deletable) : (Signy.deleteKey deletion key s).Keeps P deletable := by
  have hdeleted : ∀ other ∈ s.deleted ++ [key], other ∈ deletable := by
    intro other ho
    rcases List.mem_append.mp ho with ho | ho
    · exact h.deleted other ho
    · exact List.mem_singleton.mp ho ▸ hkey
  unfold Signy.deleteKey
  split
  · exact ⟨h.ledger.erase _ key, h.stored, hdeleted⟩
  · exact ⟨h.ledger, h.stored, h.deleted⟩
  · exact ⟨h.ledger, h.stored, hdeleted⟩

theorem PassState.Keeps.deleteKeys {s : PassState} (h : s.Keeps P deletable) (deletion : String → StoreOutcome)
    {keys : List String} (hkeys : keys ⊆ deletable) :
    (keys.foldl (fun s key => Signy.deleteKey deletion key s) s).Keeps P deletable := by
  induction keys generalizing s with
  | nil => exact h
  | cons key keys ih =>
    obtain ⟨hkey, hkeys⟩ := List.cons_subset.mp hkeys
    exact ih (h.deleteKey deletion hkey) hkeys

theorem keeps_deleteChunks (deletion : String → StoreOutcome) {keys : List String} (hkeys : keys ⊆ deletable) :
    Keeps (PassState.Keeps P deletable) (deleteChunks deletion keys) := by
  induction keys using deleteChunks.induct with
  | case1 =>
    rw [deleteChunks]
    exact keeps_pure _
  | case2 keys hnil ih =>
    rw [deleteChunks, if_neg hnil]
    refine keeps_beforeDeadline.bind fun early => ?_
    split
    · refine (keeps_modify fun s hs => ?_).bind fun _ => keeps_get_bind fun s hs => ?_
      · exact hs.deleteKeys deletion (List.Subset.trans (List.take_subset _ _) hkeys)
      · split
        · exact hs
        · exact ih (List.Subset.trans (List.drop_subset _ _) hkeys) s hs
    · exact keeps_pure _

theorem keeps_deleteOrphans (deletion : String → StoreOutcome) {keys : List String} (hkeys : keys ⊆ deletable) :
    Keeps (PassState.Keeps P deletable) (deleteOrphans options deletion keys) := by
  unfold deleteOrphans
  split
  · exact keeps_pure _
  · exact keeps_deleteChunks deletion hkeys

/-- A pass keeps what its ledgers say, and deletes only what was written down when it started. -/
theorem keeps_collectOrphansAt {conditions : Conditions} {manifests : Manifests} {s : PassState}
    (hnow : ∀ key, key ∉ manifests.activeObjectKeys → P key now) (hledger : s.ledger.Says P)
    (hstored : s.store.loadOrphanLedger.Says P) (hdeleted : s.deleted = []) :
    ((collectOrphansAt options conditions manifests now).exec s).2.Keeps P
      (s.store.loadOrphanLedger.deletable (now - options.gracePeriodNs) manifests.activeObjectKeys) := by
  have hs : s.Keeps P (s.store.loadOrphanLedger.deletable (now - options.gracePeriodNs) manifests.activeObjectKeys) :=
    ⟨hledger, hstored, by rw [hdeleted]; exact nofun⟩
  refine tracks_outcome ?_
  unfold collectOrphansAt
  split
  · exact hs
  · split
    · exact hs
    · split
      · exact hs
      · refine sat_bind.mpr (sat_get.mpr (sat_bind.mpr (sat_set.mpr ?_)))
        refine (keeps_scanPrefixes hnow _).bind (fun failed => ?_) _ ⟨hstored, hstored, hs.deleted⟩
        refine keeps_get_bind fun t ht => sat_bind.mpr (sat_set.mpr ?_)
        have hdelete : Keeps (PassState.Keeps P _) (deleteOrphans options conditions.deletion
            (withinBudget options t.ledger 0 0 (s.store.loadOrphanLedger.deletable (now - options.gracePeriodNs)
              manifests.activeObjectKeys))) := keeps_deleteOrphans _ (withinBudget_subset _ _ _ _)
        refine hdelete.bind (fun _ => ?_) _ ⟨ht.ledger, ht.stored, ht.deleted⟩
        refine (keeps_modify fun u hu => ⟨hu.ledger, hu.stored, hu.deleted⟩).bind fun _ =>
          keeps_storeOrphanLedger.bind fun _ => keeps_get_bind fun u hu => ?_
        split
        · exact hu
        · split <;> exact hu

end

namespace Gc

/-! ## Runs -/

variable {s t : Gc}

/-- What an entry stands for: the key has not been in a manifest since it was first seen by a pass, or is in one now. -/
def Stands (s : Gc) (key : String) (firstSeen : Int) : Prop :=
  firstSeen ∈ s.passes ∧
    (key ∈ s.manifests.activeObjectKeys ∨ ∀ last ∈ s.lastActive key, last ≤ firstSeen)

structure Sound (s : Gc) : Prop where
  past : ∀ key, ∀ last ∈ s.lastActive key, last ≤ s.now
  ledger : s.store.loadOrphanLedger.Says s.Stands

theorem sound_start (objects : List (String × Nat)) (manifests : Manifests) (now : Int) :
    (start objects manifests now).Sound := by
  refine ⟨fun key last hlast => ?_, OrphanLedger.says_empty⟩
  unfold start at hlast
  dsimp only at hlast
  split at hlast
  · cases hlast
    exact le_rfl
  · cases hlast

theorem Sound.commit {manifests : Manifests} (h : s.Sound) (hcommit : s.Unrecorded (.commit manifests)) :
    (seen { s with manifests }).Sound := by
  refine ⟨fun key last hlast => ?_, fun key entry hentry => ?_⟩
  · unfold seen at hlast
    dsimp only at hlast
    split at hlast
    · cases hlast
      exact le_rfl
    · exact h.past key last hlast
  · obtain ⟨hpass, hstands⟩ := h.ledger key entry hentry
    refine ⟨hpass, ?_⟩
    by_cases hactive : key ∈ manifests.activeObjectKeys
    · exact .inl hactive
    · refine .inr ?_
      have hbefore : key ∉ s.manifests.activeObjectKeys := by
        intro hbefore
        have hentry : s.store.loadOrphanLedger.orphans[key]? = some entry := hentry
        rw [hcommit key hbefore hactive] at hentry
        cases hentry
      unfold seen
      dsimp only
      rw [if_neg hactive]
      exact hstands.resolve_left hbefore

theorem Sound.wait (h : s.Sound) (ns : Nat) : (seen { s with now := s.now + ns }).Sound := by
  refine ⟨fun key last hlast => ?_, fun key entry hentry => ?_⟩
  · unfold seen at hlast ⊢
    dsimp only at hlast ⊢
    split at hlast
    · cases hlast
      exact le_rfl
    · have := h.past key last hlast
      omega
  · obtain ⟨hpass, hstands⟩ := h.ledger key entry hentry
    refine ⟨hpass, ?_⟩
    by_cases hactive : key ∈ s.manifests.activeObjectKeys
    · exact .inl hactive
    · refine .inr ?_
      unfold seen
      dsimp only
      rw [if_neg hactive]
      exact hstands.resolve_left hactive

theorem Sound.pass (h : s.Sound) (options : OrphanCollectionOptions) (conditions : Conditions) :
    (s.pass options conditions).2.Keeps
      (fun key seen => seen ∈ s.passes ++ [s.now] ∧
        (key ∈ s.manifests.activeObjectKeys ∨ ∀ last ∈ s.lastActive key, last ≤ seen))
      (s.store.loadOrphanLedger.deletable (s.now - options.gracePeriodNs) s.manifests.activeObjectKeys) := by
  unfold Gc.pass
  refine keeps_collectOrphansAt (s := ⟨s.store, .empty, {}, 0, conditions.reads, conditions.listed,
    conditions.saves, []⟩)
    (fun key _ => ?_) OrphanLedger.says_empty ?_ rfl
  · exact ⟨List.mem_append_right _ (List.mem_singleton.mpr rfl), .inr (h.past key)⟩
  · exact h.ledger.mono fun key seen hs => ⟨List.mem_append_left _ hs.1, hs.2⟩

theorem Sound.step {action : Action} (h : s.Sound) (hok : s.Unrecorded action) (hstep : s.step action = some t) :
    t.Sound := by
  cases action with
  | upload key size =>
    cases hstep
    exact ⟨h.past, h.ledger⟩
  | commit manifests =>
    cases hstep
    exact h.commit hok
  | wait ns =>
    cases hstep
    exact h.wait ns
  | collect options conditions =>
    cases hstep
    exact ⟨h.past, (h.pass options conditions).stored⟩

/-- **Deleted after the grace period.** In every state that is reached without a commit that takes a key out of the
manifests while the ledger has an entry for it, what a pass deletes was in no manifest for the grace period, and an
earlier pass had written it down. -/
theorem deleted_after_grace {objects : List (String × Nat)} {manifests : Manifests} {now : Int}
    (h : Steps.Reach Gc.step Unrecorded (start objects manifests now) s) (options : OrphanCollectionOptions)
    (conditions : Conditions) {key : String} (hkey : key ∈ (s.pass options conditions).2.deleted) :
    s.OutOfGrace options.gracePeriodNs key := by
  have hs : s.Sound := h.invariant (sound_start objects manifests now) fun _ _ _ hs hok hstep => hs.step hok hstep
  obtain ⟨hinactive, entry, hentry, hseen⟩ := OrphanLedger.mem_deletable ((hs.pass options conditions).deleted key hkey)
  obtain ⟨hpass, hstands⟩ := hs.ledger key entry hentry
  refine ⟨hinactive, fun last hlast => ?_, entry, hentry, hpass⟩
  have := hstands.resolve_left hinactive last hlast
  omega

/-! ## An object that was sighted too soon -/

/-- A part of the first of January. -/
def january : PartName := ⟨"2026-01-01", "p1"⟩

def januaryData : String := "parts/2026-01-01/p1/data.parquet"

/-- An hour of grace, without other bounds. -/
def hourly : OrphanCollectionOptions := ⟨3600000000000, 1000, 1000, 1000000, false⟩

/-- Nothing fails. -/
def fair : Conditions := ⟨1000, true, true, none, [], fun _ => .done⟩

/-- An object that no manifest ever names is written down, and deleted more than an hour later. -/
theorem unnamed_object_deleted : ∃ s, Steps.Reach Gc.step Unrecorded (start [] ⟨[], [], []⟩ 0) s ∧
    januaryData ∈ (s.pass hourly fair).2.deleted ∧ s.OutOfGrace hourly.gracePeriodNs januaryData := by
  have hrun : (Steps.along Gc.step Unrecorded
      [.upload januaryData 7, .collect hourly fair, .wait 3600000000001] (start [] ⟨[], [], []⟩ 0)).any
      (fun s => (s.pass hourly fair).2.deleted.contains januaryData) = true := by
    decide +kernel
  obtain ⟨s, hreach, hdeleted⟩ := Steps.exists_reach _ hrun
  have hdeleted := List.contains_iff_mem.mp hdeleted
  exact ⟨s, hreach, hdeleted, deleted_after_grace hreach hourly fair hdeleted⟩

/-- **Deleted without grace.** A pass sights the objects of a part that is not committed yet. The part is committed,
stays for two hours, and is taken out without a pass having come by. The next pass deletes them at once. -/
theorem retired_object_deleted_at_once : ∃ s, Steps.Reach Gc.step (fun _ _ => True) (start [] ⟨[], [], []⟩ 0) s ∧
    januaryData ∈ (s.pass hourly fair).2.deleted ∧ s.lastActive januaryData = some s.now ∧
    ¬ s.OutOfGrace hourly.gracePeriodNs januaryData := by
  have hrun : (Steps.along Gc.step (fun _ _ => True)
      [.upload januaryData 7, .collect hourly fair, .commit ⟨[january], [], []⟩, .wait 7200000000000,
        .commit ⟨[], [], []⟩] (start [] ⟨[], [], []⟩ 0)).any
      (fun s => (s.pass hourly fair).2.deleted.contains januaryData && s.lastActive januaryData = some s.now) =
        true := by
    decide +kernel
  obtain ⟨s, hreach, hshown⟩ := Steps.exists_reach _ hrun
  obtain ⟨hdeleted, hlast⟩ := (Bool.and_eq_true _ _).mp hshown
  have hlast := of_decide_eq_true hlast
  refine ⟨s, hreach, List.contains_iff_mem.mp hdeleted, hlast, fun h => ?_⟩
  have := h.grace s.now hlast
  simp only [hourly] at this
  omega

end Gc

end Signy
