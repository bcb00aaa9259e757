/-
What the reading programs of a catalog handle return.

They read objects and write back what they read, so all that matters is a protocol under which the objects fit a chain
and a fitting object may be written. What an object tells while it is kept is a parameter, so that the same lemmas serve
handles that interleave and a pass that runs alone.
-/
import Mathlib
import Fn0.Signy.CatalogChain

namespace Signy

open Std (ExtTreeMap ExtTreeSet)

/-- A protocol whose objects fit the chain, and what an object that was read tells from then on. -/
structure Keeper (sha : Sha) (h : Nat) extends Protocol Site where
  answers : (op : CatalogOp) → Site → op.Answer → Site → Prop
  Holds : CatalogKind → Replica → Nat → CatalogObject → Site → Prop
  performs : ∀ {op s answer t}, answers op s answer t → ∃ reply, s.perform h reply op = (answer, t)
  grow : ∀ {s t}, later s t → s.chain <+: t.chain
  holds : ∀ {s kind replica g object}, inv s → (s.bucket.of kind replica)[g]? = some object →
    Holds kind replica g object s
  holds_later : ∀ {s t kind replica g object}, Holds kind replica g object s → later s t → Holds kind replica g object t
  fits : ∀ {s kind replica g object}, Holds kind replica g object s → Fits sha s.chain kind g object
  create : ∀ {s kind replica g object}, inv s → Fits sha s.chain kind g object → g ∉ s.bucket.of kind replica →
    inv (s.create kind replica g object) ∧ later s (s.create kind replica g object)

namespace Keeper

variable {sha : Sha} {h : Nat} {K : Keeper sha h} {s : Site} {α : Type}

/-- The program keeps the protocol, and its value meets `R` from then on. -/
abbrev Gives (K : Keeper sha h) (x : CatalogM α) (R : α → Site → Prop) (s : Site) : Prop :=
  Calls.Gives K.toProtocol K.answers x R s

/-! ## Single calls -/

/-- A call without effect. -/
theorem gives_read {op : CatalogOp} (hop : ∀ t : Site, t.effect h op = t) {R : op.Answer → Site → Prop}
    (hR : ∀ (t : Site) (reply : Reply) (v : Site), K.later s t → K.inv t → K.later t v → K.inv v →
      R (t.perform h reply op).1 v) : K.Gives (ask op) R s := by
  refine Calls.gives_perform fun t ht hi answer u hu => ?_
  obtain ⟨reply, hu⟩ := K.performs hu
  have hsame : u = t := by
    rcases Site.perform_site t h reply op with heq | heq <;> rw [hu] at heq
    · exact heq
    · exact heq.trans (hop t)
  subst hsame
  refine ⟨hi, K.refl _, fun v hv hvi => ?_⟩
  have hanswer := hR u reply v ht hi hv hvi
  rwa [hu] at hanswer

theorem gives_storeCall {error : CatalogError} {call : CatalogM (Except Unit α)} {R : α → Site → Prop}
    (hx : K.Gives call (fun r t => ∀ a, r = .ok a → R a t) s) (hR : ∀ a t u, R a t → K.later t u → R a u) :
    K.Gives (storeCall error call) R s := by
  refine hx.bind fun r t ht hi hr => ?_
  cases r with
  | error => exact Calls.gives_throw
  | ok a => exact Calls.gives_pure fun u hu _ => hR a t u (hr a rfl) hu

theorem gives_storeCall_true {error : CatalogError} {call : CatalogM (Except Unit α)}
    (hx : K.Gives call (fun _ _ => True) s) : K.Gives (storeCall error call) (fun _ _ => True) s :=
  gives_storeCall (hx.mono fun _ _ _ _ _ _ _ => trivial) fun _ _ _ _ _ => trivial

/-- A reading call whose answer is not looked at. -/
theorem gives_read_true (op : CatalogOp) (hop : ∀ t : Site, t.effect h op = t) :
    K.Gives (ask op) (fun _ _ => True) s :=
  gives_read hop fun _ _ _ _ _ _ _ => trivial

theorem gives_catalogGet {kind : CatalogKind} {replica : Replica} {g : Nat} :
    K.Gives (catalogGet kind replica g) (fun o t => ∀ object, o = some object → K.Holds kind replica g object t) s := by
  refine gives_storeCall (gives_read (fun _ => rfl) fun t reply v _ ht hv _ o ho object hobj => ?_)
    fun o t u ho hu object hobj => K.holds_later (ho object hobj) hu
  subst hobj
  unfold Site.perform at ho
  split at ho
  · exact K.holds_later (K.holds ht (Except.ok.inj ho)) hv
  · cases ho
  · cases ho

theorem gives_catalogPutCreate {kind : CatalogKind} {replica : Replica} {g : Nat} {object : CatalogObject}
    (hf : Fits sha s.chain kind g object) : K.Gives (catalogPutCreate kind replica g object) (fun _ _ => True) s := by
  refine gives_storeCall_true (Calls.gives_perform fun t ht hi answer u hu => ?_)
  obtain ⟨reply, hu⟩ := K.performs hu
  have hkept : K.inv u ∧ K.later t u := by
    rcases Site.perform_site t h reply (.create kind replica g object) with heq | heq <;> rw [hu] at heq <;>
      simp only [Site.effect] at heq <;> subst heq
    · exact ⟨hi, K.refl _⟩
    · split
      · exact ⟨hi, K.refl _⟩
      next habsent => exact K.create hi (hf.grow (K.grow ht)) habsent
  exact ⟨hkept.1, hkept.2, fun _ _ _ => trivial⟩

/-- The generations come in order. -/
theorem gives_catalogGenerations {kind : CatalogKind} {offset : Option Nat} :
    K.Gives (catalogGenerations kind offset) (fun generations _ => generations.Pairwise (· < ·)) s :=
  (gives_storeCall_true (gives_read_true (.list kind .a offset) fun _ => rfl)).bind fun _ _ _ _ _ =>
    (gives_storeCall_true (gives_read_true (.list kind .b offset) fun _ => rfl)).bind fun _ _ _ _ _ =>
      Calls.gives_pure fun _ _ _ => OrdMap.set_toList_sorted _

/-! ## Loading -/

theorem gives_loadCatalogCommitReplica {g : Nat} {replica : Replica} :
    K.Gives (loadCatalogCommitReplica sha g replica)
      (fun o t => ∀ commit, o = some commit → K.Holds .commits replica g (.commit commit) t) s := by
  refine gives_catalogGet.bind fun o t _ _ ho => ?_
  split
  next => exact Calls.gives_pure fun _ _ _ => nofun
  next commit =>
    refine Calls.gives_check fun _ _ => Calls.gives_check fun _ _ => Calls.gives_pure fun u hu _ c hc => ?_
    cases hc
    exact K.holds_later (ho _ rfl) hu
  next => exact Calls.gives_throw

theorem gives_loadCatalogSnapshotReplica {g : Nat} {replica : Replica} :
    K.Gives (loadCatalogSnapshotReplica sha g replica)
      (fun o t => ∀ snapshot, o = some snapshot → K.Holds .snapshots replica g (.snapshot snapshot) t) s := by
  refine gives_catalogGet.bind fun o t _ _ ho => ?_
  split
  next => exact Calls.gives_pure fun _ _ _ => nofun
  next snapshot =>
    refine Calls.gives_check fun _ _ => Calls.gives_check fun _ _ => Calls.gives_check fun _ _ =>
      Calls.gives_check fun _ _ => Calls.gives_check fun _ _ => Calls.gives_pure fun u hu _ c hc => ?_
    cases hc
    exact K.holds_later (ho _ rfl) hu
  next => exact Calls.gives_throw

/-- Whichever replica the value is taken from, and whichever is repaired, the value is the one of the chain. -/
theorem gives_loadReplicated {kind : CatalogKind} {digest : α → String} {object : α → CatalogObject} {g : Nat}
    {replica : Replica → CatalogM (Option α)}
    (hr : ∀ r t, K.Gives (replica r) (fun o u => ∀ a, o = some a → K.Holds kind r g (object a) u) t) :
    K.Gives (loadReplicated kind digest object g replica) (fun a t => Fits sha t.chain kind g (object a)) s := by
  refine (hr .a s).attempt.bind fun first t _ _ hfirst => (hr .b t).attempt.bind fun second u htu _ hsecond => ?_
  have hone : ∀ a, first = .ok (some a) → Fits sha u.chain kind g (object a) := fun a ha =>
    (K.fits (hfirst _ ha a rfl)).grow (K.grow htu)
  have htwo : ∀ a, second = .ok (some a) → Fits sha u.chain kind g (object a) := fun a ha =>
    K.fits (hsecond _ ha a rfl)
  have hdone : ∀ {a}, Fits sha u.chain kind g (object a) →
      K.Gives (pure a) (fun a t => Fits sha t.chain kind g (object a)) u :=
    fun ha => Calls.gives_pure fun v hv _ => ha.grow (K.grow hv)
  have hrepair : ∀ {a r}, Fits sha u.chain kind g (object a) →
      K.Gives (catalogPutCreate kind r g (object a) >>= fun _ => pure a)
        (fun a t => Fits sha t.chain kind g (object a)) u := fun ha =>
    (gives_catalogPutCreate ha).bind fun _ v hv _ _ =>
      Calls.gives_pure fun w hw _ => (ha.grow (K.grow hv)).grow (K.grow hw)
  unfold reconcileReplicas
  split
  · exact Calls.gives_check fun _ _ => hdone (hone _ rfl)
  · exact hrepair (hone _ rfl)
  · exact hrepair (htwo _ rfl)
  · exact hdone (htwo _ rfl)
  · exact hdone (hone _ rfl)
  all_goals exact Calls.gives_throw

theorem gives_loadCatalogCommit {g : Nat} :
    K.Gives (loadCatalogCommit sha g) (fun commit t => Fits sha t.chain .commits g (.commit commit)) s :=
  gives_loadReplicated fun _ _ => gives_loadCatalogCommitReplica

theorem gives_loadCatalogSnapshot {g : Nat} :
    K.Gives (loadCatalogSnapshot sha g) (fun snapshot t => Fits sha t.chain .snapshots g (.snapshot snapshot)) s :=
  gives_loadReplicated fun _ _ => gives_loadCatalogSnapshotReplica

theorem gives_firstSnapshot {generations : List Nat} :
    K.Gives (firstSnapshot sha generations)
      (fun o t => ∀ snapshot, o = some snapshot → Reaches t.chain snapshot.state) s := by
  induction generations generalizing s with
  | nil => exact Calls.gives_pure fun _ _ _ => nofun
  | cons g generations ih =>
    refine gives_loadCatalogSnapshot.attempt.bind fun r t _ _ hr => ?_
    split
    next snapshot =>
      refine Calls.gives_pure fun u hu _ sn hsn => ?_
      cases hsn
      exact (hr _ rfl).reaches.grow (K.grow hu)
    next => exact ih

theorem gives_checkLegacyManifest {signal : Signal} : K.Gives (checkLegacyManifest signal) (fun _ _ => True) s :=
  (gives_storeCall_true (gives_read_true (.legacyManifest signal) fun _ => rfl)).bind fun _ _ _ _ _ =>
    Calls.gives_ofExcept fun _ _ _ _ _ => trivial

/-- Each commit that is replayed is the next one of the chain. -/
theorem gives_replayCommits {state : CatalogState} {generations : List Nat} (hr : Reaches s.chain state) :
    K.Gives (replayCommits sha state generations)
      (fun final t => Reaches t.chain final ∧ state.generation ≤ final.generation ∧
        ∀ g ∈ generations, g ≤ final.generation) s := by
  induction generations generalizing s state with
  | nil => exact Calls.gives_pure fun t ht _ => ⟨hr.grow (K.grow ht), le_rfl, nofun⟩
  | cons g generations ih =>
    refine Calls.gives_check fun expected hexp => Calls.gives_check fun _ hg => ?_
    obtain ⟨-, rfl⟩ := checkedSucc_eq_ok.mp hexp
    have hg := not_not.mp (refuse_eq_ok.mp hg)
    refine gives_loadCatalogCommit.bind fun commit t hst _ hf => Calls.gives_check fun _ _ =>
      Calls.gives_check fun next ha => ?_
    obtain ⟨c, heq, -, hc⟩ := hf
    cases heq
    have happ := applies_of_ok ha
    rw [hg, Nat.add_sub_cancel] at hc
    refine (ih ((hr.grow (K.grow hst)).apply hc ha)).mono fun final u _ _ hfin => ?_
    obtain ⟨hreach, hle, hall⟩ := hfin
    have hnext : next.generation = state.generation + 1 := by rw [happ.next_generation, happ.generation]
    refine ⟨hreach, by omega, fun g' hg' => ?_⟩
    rcases List.mem_cons.mp hg' with rfl | hg'
    · omega
    · exact hall g' hg'

/-! ## Snapshots -/

theorem gives_createSame {kind : CatalogKind} {replica : Replica} {g : Nat} {object : CatalogObject}
    (hf : Fits sha s.chain kind g object) : K.Gives (createSame kind replica g object) (fun _ _ => True) s := by
  refine (gives_catalogPutCreate hf).bind fun created t _ _ _ => ?_
  split
  · exact Calls.gives_pure fun _ _ _ => trivial
  · refine gives_catalogGet.bind fun o u _ _ _ => ?_
    split
    · exact Calls.gives_throw
    · exact Calls.gives_ofExcept fun _ _ _ _ _ => trivial

theorem gives_writeCatalogSnapshot {state : CatalogState} (hr : Reaches s.chain state) :
    K.Gives (writeCatalogSnapshot sha state) (fun _ _ => True) s := by
  have hf : Fits sha s.chain .snapshots state.generation (.snapshot (state.snapshot sha)) := ⟨state, rfl, rfl, hr⟩
  exact (gives_createSame hf).bind fun _ t ht _ _ => gives_createSame (hf.grow (K.grow ht))

/-- Both replicas of the snapshot of a generation were read. -/
def Full (K : Keeper sha h) (g : Nat) (s : Site) : Prop :=
  ∀ replica, ∃ snapshot, K.Holds .snapshots replica g (.snapshot snapshot) s

theorem Full.later {g : Nat} {t : Site} (hf : K.Full g s) (hst : K.later s t) : K.Full g t := fun replica =>
  (hf replica).imp fun _ hs => K.holds_later hs hst

theorem gives_catalogSnapshotIsIntact {g : Nat} :
    K.Gives (catalogSnapshotIsIntact sha g) (fun intact t => intact = true → K.Full g t) s := by
  refine gives_loadCatalogSnapshotReplica.attempt.bind fun first t _ _ hfirst =>
    gives_loadCatalogSnapshotReplica.attempt.bind fun second u htu _ hsecond => ?_
  split
  next =>
    have hfull : K.Full g u := fun
      | .a => ⟨_, K.holds_later (hfirst _ rfl _ rfl) htu⟩
      | .b => ⟨_, hsecond _ rfl _ rfl⟩
    split
    · exact Calls.gives_pure fun _ _ _ => nofun
    · refine gives_loadCatalogCommit.attempt.bind fun r v hv _ _ => ?_
      split
      · exact Calls.gives_pure fun w hw _ _ => (hfull.later hv).later hw
      · exact Calls.gives_pure fun _ _ _ => nofun
  next => exact Calls.gives_pure fun _ _ _ => nofun

theorem gives_intactSnapshots {n : Nat} {generations : List Nat} :
    K.Gives (intactSnapshots sha n generations) (fun found t => found.Sublist generations ∧ ∀ g ∈ found,
      K.Full g t) s := by
  induction generations generalizing s n with
  | nil => cases n <;> exact Calls.gives_pure fun _ _ _ => ⟨List.Sublist.slnil, nofun⟩
  | cons g generations ih =>
    cases n with
    | zero => exact Calls.gives_pure fun _ _ _ => ⟨List.nil_sublist _, nofun⟩
    | succ n =>
      refine gives_catalogSnapshotIsIntact.bind fun intact t _ _ hg => ?_
      split
      next htrue =>
        refine ih.bind fun found u htu _ hfound => Calls.gives_pure fun v hv _ =>
          ⟨hfound.1.cons_cons g, fun g' hg' => ?_⟩
        rcases List.mem_cons.mp hg' with rfl | hg'
        · exact ((hg htrue).later htu).later hv
        · exact (hfound.2 g' hg').later hv
      next => exact ih.mono fun found u _ _ hfound => ⟨hfound.1.cons g, hfound.2⟩

/-! ## Pruning -/

/-- The generations below a bound may be deleted, now and later. -/
def MayDelete (K : Keeper sha h) (bound : Nat) (s : Site) : Prop :=
  ∀ t, K.later s t → K.inv t → ∀ kind replica, ∀ g < bound,
    K.inv (t.delete kind replica g) ∧ K.later t (t.delete kind replica g)

theorem MayDelete.later {bound : Nat} {t : Site} (hd : K.MayDelete bound s) (hst : K.later s t) :
    K.MayDelete bound t := fun u hu => hd u (K.trans hst hu)

theorem gives_deleteGenerations {bound : Nat} {kind : CatalogKind} {replica : Replica} {generations : List Nat}
    (hd : K.MayDelete bound s) (hg : ∀ g ∈ generations, g < bound) :
    K.Gives (deleteGenerations kind replica generations) (fun _ _ => True) s := by
  induction generations generalizing s with
  | nil => exact Calls.gives_pure fun _ _ _ => trivial
  | cons g generations ih =>
    have hdelete : K.Gives (ask (.delete kind replica g)) (fun _ _ => True) s := by
      refine Calls.gives_perform fun t ht hi answer u hu => ?_
      obtain ⟨reply, hu⟩ := K.performs hu
      have hkept : K.inv u ∧ K.later t u := by
        rcases Site.perform_site t h reply (.delete kind replica g) with heq | heq <;> rw [hu] at heq <;>
          simp only [Site.effect] at heq <;> subst heq
        · exact ⟨hi, K.refl _⟩
        · exact hd t ht hi kind replica g (hg g List.mem_cons_self)
      exact ⟨hkept.1, hkept.2, fun _ _ _ => trivial⟩
    exact (gives_storeCall_true hdelete).bind fun _ t ht _ _ =>
      (ih (hd.later ht) fun g' hg' => hg g' (List.mem_cons_of_mem _ hg')).bind
        fun _ _ _ _ _ => Calls.gives_pure fun _ _ _ => trivial

theorem gives_deleteSuperseded {oldestKept : Nat} {kind : CatalogKind} {replica : Replica}
    (hd : K.MayDelete oldestKept s) : K.Gives (deleteSuperseded oldestKept kind replica) (fun _ _ => True) s := by
  refine (gives_storeCall_true (gives_read_true (.listAged kind replica) fun _ => rfl)).bind fun listed t ht _ _ =>
    gives_deleteGenerations (hd.later ht) fun g hg => ?_
  obtain ⟨⟨g', aged⟩, hm, rfl⟩ := List.mem_map.mp hg
  have hlt := (List.mem_filter.mp hm).2
  simp only [Bool.and_eq_true, decide_eq_true_eq] at hlt
  exact hlt.1

/-- A pass deletes what is older than two snapshots that it found on both replicas. -/
theorem gives_pruneCatalog
    (hd : ∀ newest oldest t, oldest < newest → K.Full newest t → K.Full oldest t → K.MayDelete oldest t) :
    K.Gives (pruneCatalog sha) (fun _ _ => True) s := by
  refine gives_catalogGenerations.bind fun generations t _ _ hsorted => gives_intactSnapshots.bind
    fun found u _ _ hfound => ?_
  split
  next newest oldest =>
    have hlt : oldest < newest := by
      have hp := (List.pairwise_reverse.mpr hsorted).sublist hfound.1
      simpa using hp
    have hmay := hd newest oldest u hlt (hfound.2 newest (by simp)) (hfound.2 oldest (by simp))
    refine (gives_deleteSuperseded hmay).bind fun _ v₁ h₁ _ _ =>
      (gives_deleteSuperseded (hmay.later h₁)).bind fun _ v₂ h₂ _ _ =>
      (gives_deleteSuperseded ((hmay.later h₁).later h₂)).bind fun _ v₃ h₃ _ _ =>
      (gives_deleteSuperseded (((hmay.later h₁).later h₂).later h₃)).bind fun _ _ _ _ _ =>
      Calls.gives_pure fun _ _ _ => trivial
  next => exact Calls.gives_pure fun _ _ _ => trivial

end Keeper

end Signy
