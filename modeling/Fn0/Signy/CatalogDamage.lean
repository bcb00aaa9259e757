/-
What damage of its objects the catalog survives.

A catalog is written by commits on both replicas, by snapshots, where a replica may fail, and by pruning passes, where
any call may fail. Whatever a pass has deleted lies below two snapshots that are on both replicas. So one snapshot may
be lost altogether, and one replica of everything else, and a load still finds a snapshot and every commit after it.
-/
import Mathlib
import Fn0.Signy.CatalogReads

namespace Signy

open Std (ExtTreeMap ExtTreeSet)

namespace Site

/-! ## What pruning leaves -/

/-- The snapshot of a generation is on both replicas. -/
def Full (site : Site) (g : Nat) : Prop := ∀ replica, g ∈ site.bucket.of .snapshots replica

/-- Two snapshots, not before a generation, are on both replicas. -/
def Pair (site : Site) (x : Nat) : Prop := ∃ p q, x ≤ p ∧ p < q ∧ site.Full p ∧ site.Full q

theorem Pair.mono {site : Site} {x y : Nat} (h : site.Pair y) (hxy : x ≤ y) : site.Pair x := by
  obtain ⟨p, q, hp, hpq, hfp, hfq⟩ := h
  exact ⟨p, q, hxy.trans hp, hpq, hfp, hfq⟩

/-- Every object fits the chain, and a commit is missing on a replica only below two full snapshots. -/
structure Kept (sha : Sha) (site : Site) : Prop where
  folds : ∃ state, replay site.chain = .ok state
  verified : ∀ commit ∈ site.chain, verifyCatalogCommit sha commit = .ok ()
  fits : ∀ kind replica g object, (site.bucket.of kind replica)[g]? = some object → Fits sha site.chain kind g object
  commits : ∀ replica g, 0 < g → g ≤ site.chain.length → g ∈ site.bucket.of .commits replica ∨ site.Pair (g + 1)
  legacy : site.bucket.legacy = []

/-- What is there stays there, or two full snapshots after it do. -/
structure Keeps (s t : Site) : Prop where
  chain : s.chain = t.chain
  pair : ∀ x, s.Pair x → t.Pair x
  objects : ∀ kind replica g, g ∈ s.bucket.of kind replica → g ∈ t.bucket.of kind replica ∨ t.Pair (g + 1)

variable {sha : Sha} {s t u site : Site} {kind : CatalogKind} {replica : Replica} {g : Nat} {object : CatalogObject}

theorem Keeps.trans (hst : Keeps s t) (htu : Keeps t u) : Keeps s u where
  chain := hst.chain.trans htu.chain
  pair := fun x hx => htu.pair x (hst.pair x hx)
  objects := fun kind replica g hg => by
    rcases hst.objects kind replica g hg with hg | hp
    · exact htu.objects kind replica g hg
    · exact .inr (htu.pair _ hp)

theorem Pair.create {x : Nat} (hp : site.Pair x) : (site.create kind replica g object).Pair x := by
  obtain ⟨p, q, hx, hpq, hfp, hfq⟩ := hp
  exact ⟨p, q, hx, hpq, fun r => mem_create.mpr (.inr (hfp r)), fun r => mem_create.mpr (.inr (hfq r))⟩

theorem keeps_create (hchain : (site.create kind replica g object).chain = site.chain) :
    Keeps site (site.create kind replica g object) where
  chain := hchain.symm
  pair := fun _ hp => hp.create
  objects := fun _ _ _ hm => .inl (mem_create.mpr (.inr hm))

theorem legacy_update (bucket : Bucket) (kind : CatalogKind) (replica : Replica) (f : CatalogObjects → CatalogObjects) :
    (bucket.update kind replica f).legacy = bucket.legacy := by
  cases kind <;> cases replica <;> rfl

theorem chain_create_of_fits (replica : Replica) (hf : Fits sha site.chain kind g object) :
    (site.create kind replica g object).chain = site.chain := by
  cases kind with
  | commits =>
    obtain ⟨commit, rfl, hg, hc⟩ := hf
    have := (List.getElem?_eq_some_iff.mp hc).1
    exact chain_create_of_le (by omega)
  | snapshots => rfl

theorem Kept.create (hk : site.Kept sha) (hf : Fits sha site.chain kind g object) :
    (site.create kind replica g object).Kept sha ∧ Keeps site (site.create kind replica g object) := by
  have hchain := chain_create_of_fits replica hf
  have hkeeps := keeps_create hchain
  refine ⟨⟨by rw [hchain]; exact hk.folds, by rw [hchain]; exact hk.verified, fun kind' replica' g' object' ho => ?_,
    fun replica' g' h0 hle => ?_, (legacy_update ..).trans hk.legacy⟩, hkeeps⟩
  · rw [hchain]
    rw [getElem?_create] at ho
    split at ho
    next heq =>
      obtain ⟨rfl, rfl, rfl⟩ := heq
      cases ho
      exact hf
    next => exact hk.fits _ _ _ _ ho
  · rw [hchain] at hle
    exact (hk.commits replica' g' h0 hle).elim (hkeeps.objects _ _ _) fun hp => .inr (hkeeps.pair _ hp)

/-- Deleting an object below two full snapshots leaves two full snapshots above everything that is missing. -/
theorem keeps_delete (kind : CatalogKind) (replica : Replica) (hp : site.Pair (g + 1)) :
    Keeps site (site.delete kind replica g) := by
  obtain ⟨p, q, hgp, hpq, hfp, hfq⟩ := hp
  have hfull : ∀ x, g < x → site.Full x → (site.delete kind replica g).Full x := fun x hlt hx r =>
    mem_delete.mpr ⟨fun heq => by omega, hx r⟩
  have hpair : (site.delete kind replica g).Pair p := ⟨p, q, le_rfl, hpq, hfull p hgp hfp, hfull q (by omega) hfq⟩
  refine ⟨rfl, fun x hx => ?_, fun kind' replica' g' hm => ?_⟩
  · obtain ⟨p', q', hxp, hpq', hfp', hfq'⟩ := hx
    by_cases hlt : g < p'
    · exact ⟨p', q', hxp, hpq', hfull p' hlt hfp', hfull q' (by omega) hfq'⟩
    · exact hpair.mono (by omega)
  · by_cases heq : kind = kind' ∧ replica = replica' ∧ g = g'
    · exact .inr (hpair.mono (by omega))
    · exact .inl (mem_delete.mpr ⟨heq, hm⟩)

theorem Kept.delete (hk : site.Kept sha) (hp : site.Pair (g + 1)) :
    (site.delete kind replica g).Kept sha ∧ Keeps site (site.delete kind replica g) := by
  have hkeeps := keeps_delete kind replica hp
  refine ⟨⟨hk.folds, hk.verified, fun kind' replica' g' object ho => ?_, fun replica' g' h0 hle => ?_,
    (legacy_update ..).trans hk.legacy⟩, hkeeps⟩
  · rw [getElem?_delete] at ho
    split at ho
    · cases ho
    · exact hk.fits _ _ _ _ ho
  · exact (hk.commits replica' g' h0 hle).elim (hkeeps.objects _ _ _) fun hp => .inr (hkeeps.pair _ hp)

/-- What a call of a handle can answer and leave. -/
def Performs (h : Nat) (op : CatalogOp) (s : Site) (answer : op.Answer) (t : Site) : Prop :=
  ∃ reply, s.perform h reply op = (answer, t)

end Site

open Site

/-- What keeps two full snapshots above everything that is missing: an object that was read is there, or below them. -/
def pairKeeper (sha : Sha) (h : Nat) : Keeper sha h where
  inv := Kept sha
  later := Keeps
  refl s := ⟨rfl, fun _ => id, fun _ _ _ => .inl⟩
  trans := Keeps.trans
  answers := Performs h
  Holds kind replica g object s := Fits sha s.chain kind g object ∧ (g ∈ s.bucket.of kind replica ∨ s.Pair (g + 1))
  performs := id
  grow := fun hst => by rw [hst.chain]
  holds := fun hk ho => ⟨hk.fits _ _ _ _ ho, .inl (ExtTreeMap.mem_iff_isSome_getElem?.mpr (by rw [ho]; rfl))⟩
  holds_later := fun ⟨hf, hm⟩ hst =>
    ⟨by rw [← hst.chain]; exact hf, hm.elim (hst.objects _ _ _) fun hp => .inr (hst.pair _ hp)⟩
  fits := And.left
  create := fun hk hf _ => hk.create hf

section Written

variable {sha : Sha} {h : Nat} {site : Site}

/-- A pass of its own: the two snapshots it found are full, or two later ones are. -/
theorem pairKeeper_mayDelete {newest oldest : Nat} (hlt : oldest < newest) (hn : (pairKeeper sha h).Full newest site)
    (ho : (pairKeeper sha h).Full oldest site) : (pairKeeper sha h).MayDelete oldest site := by
  have hpair : site.Pair oldest := by
    by_cases hp : site.Pair (oldest + 1)
    · exact hp.mono (Nat.le_succ _)
    · refine ⟨oldest, newest, le_rfl, hlt, fun r => ?_, fun r => ?_⟩
      · obtain ⟨_, -, hm⟩ := ho r
        exact hm.resolve_right hp
      · obtain ⟨_, -, hm⟩ := hn r
        exact hm.resolve_right fun hp' => hp (hp'.mono (by omega))
  exact fun t hst hk kind replica g hg => hk.delete ((hst.pair _ hpair).mono hg)

/-- A catalog that was written by commits, snapshots at the interval generations, and pruning passes. -/
inductive Written (sha : Sha) : Site → Prop
  | empty : Written sha {}
  | commit {site : Site} {state next : CatalogState} {mutation : CatalogMutation} {commit : CatalogCommit} :
      Written sha site → replay site.chain = .ok state → state.commit sha mutation = .ok commit →
      applyCatalogMutation state commit = .ok next →
      Written sha ((site.create .commits .a commit.generation (.commit commit)).create .commits .b commit.generation
        (.commit commit))
  | snapshot {site t : Site} {state : CatalogState} {h : Nat} {result : Except CatalogError Unit} :
      Written sha site → Reaches site.chain state → state.generation % catalogSnapshotInterval = 0 →
      Calls.Ends (Performs h) (writeCatalogSnapshot sha state) site result t → Written sha t
  | prune {site t : Site} {h : Nat} {result : Except CatalogError Nat} :
      Written sha site → Calls.Ends (Performs h) (pruneCatalog sha) site result t → Written sha t

/-- The next commit makes the chain longer by itself. -/
theorem chain_commit {state next : CatalogState} {commit : CatalogCommit} (hs : replay site.chain = .ok state)
    (ha : applyCatalogMutation state commit = .ok next) :
    commit.generation = site.chain.length + 1 ∧
      ((site.create .commits .a commit.generation (.commit commit)).create .commits .b commit.generation
        (.commit commit)).chain = site.chain ++ [commit] := by
  have hgen : commit.generation = site.chain.length + 1 := by rw [(applies_of_ok ha).generation, replay_generation hs]
  have hfirst := site.chain_create_next commit
  rw [hgen, chain_create_of_le (by rw [hfirst]; simp), hfirst]
  exact ⟨rfl, rfl⟩

theorem kept_commit {state next : CatalogState} {mutation : CatalogMutation} {commit : CatalogCommit}
    (hk : site.Kept sha) (hs : replay site.chain = .ok state) (hc : state.commit sha mutation = .ok commit)
    (ha : applyCatalogMutation state commit = .ok next) :
    ((site.create .commits .a commit.generation (.commit commit)).create .commits .b commit.generation
      (.commit commit)).Kept sha := by
  obtain ⟨hgen, hchain⟩ := chain_commit hs ha
  have hverify : verifyCatalogCommit sha commit = .ok () := by
    obtain ⟨g, -, hseal⟩ := Except.bind_eq_ok.mp hc
    cases hseal
    simp [verifyCatalogCommit, sealCatalogCommit, refuse]
  rw [hgen] at hchain ⊢
  generalize htwo : (site.create .commits .a (site.chain.length + 1) (.commit commit)).create .commits .b
    (site.chain.length + 1) (.commit commit) = t at hchain ⊢
  refine ⟨?_, ?_, fun kind replica g object ho => ?_, fun replica g h0 hle => ?_, ?_⟩
  · rw [hchain]
    exact ⟨next, replay_concat_eq_ok.mpr ⟨state, hs, ha⟩⟩
  · intro c hm
    rw [hchain] at hm
    rcases List.mem_append.mp hm with hm | hm
    · exact hk.verified c hm
    · rw [List.mem_singleton.mp hm, hverify]
  · have hnew : Fits sha t.chain .commits (site.chain.length + 1) (.commit commit) :=
      ⟨commit, rfl, Nat.succ_pos _, by rw [hchain]; simp⟩
    rw [← htwo, getElem?_create, getElem?_create] at ho
    split at ho
    next heq =>
      obtain ⟨rfl, -, rfl⟩ := heq
      cases ho
      exact hnew
    next =>
      split at ho
      next heq =>
        obtain ⟨rfl, -, rfl⟩ := heq
        cases ho
        exact hnew
      next =>
        rw [hchain]
        exact (hk.fits _ _ _ _ ho).grow (List.prefix_append _ _)
  · rw [hchain, List.length_append, List.length_singleton] at hle
    rw [← htwo, mem_create, mem_create]
    by_cases hg : g ≤ site.chain.length
    · exact (hk.commits replica g h0 hg).imp (fun hm => .inr (.inr hm)) fun hp => hp.create.create
    · have hg : site.chain.length + 1 = g := by omega
      cases replica with
      | a => exact .inl (.inr (.inl ⟨rfl, rfl, hg⟩))
      | b => exact .inl (.inl ⟨rfl, rfl, hg⟩)
  · rw [← htwo]
    exact (legacy_update ..).trans ((legacy_update ..).trans hk.legacy)

/-- **Writing.** However a catalog was written, what is missing is below two full snapshots. -/
theorem Written.kept (hw : Written sha site) : site.Kept sha := by
  induction hw with
  | empty =>
    exact ⟨⟨{}, rfl⟩, nofun, fun kind r g o ho => by cases kind <;> cases r <;> simp [Bucket.of] at ho,
      fun r g h0 hle => absurd hle (Nat.not_le.mpr h0), rfl⟩
  | commit _ hs hc ha ih => exact kept_commit ih hs hc ha
  | @snapshot _ _ _ h _ _ hs _ hends ih =>
    exact ((Keeper.gives_writeCatalogSnapshot (K := pairKeeper sha h) hs).ends ih hends).1
  | @prune _ _ h _ _ hends ih =>
    exact ((Keeper.gives_pruneCatalog (K := pairKeeper sha h) fun _ _ _ hlt hn ho =>
      pairKeeper_mayDelete hlt hn ho).ends ih hends).1

end Written

end Signy
