/-
Loading a damaged catalog.

Damage takes objects away or makes them unreadable. A load that runs alone and whose calls all succeed is followed call
by call: it finds the newest snapshot that one replica still has, reads every commit after it from one replica or the
other, and writes back replicas that are missing.
-/
import Mathlib
import Fn0.Signy.CatalogDamage

namespace Signy

open Site

open Std (ExtTreeMap ExtTreeSet)

/-! ## Facts about a chain -/

section Chain

variable {sha : Sha} {chain : List CatalogCommit} {state : CatalogState} {commit : CatalogCommit}

end Chain

/-! ## Calls that succeed -/

/-- The run of a program whose calls all succeed. -/
def Site.run {α : Type} (s : Site) (h : Nat) (x : CatalogM α) : Except CatalogError α × Site :=
  x.run (fun op site => site.perform h {} op) s

section Run

variable {sha : Sha} {s t : Site} {h : Nat} {α β : Type} {x : CatalogM α} {f : α → CatalogM β}

end Run

/-! ## Damage -/

/-- What a bucket has lost: objects are gone or unreadable, on one replica each, and one snapshot on both. -/
structure Damage (before after : Site) : Prop where
  chain : after.chain = before.chain
  legacy : after.bucket.legacy = before.bucket.legacy
  struck : ∀ kind replica (g : Nat),
    (after.bucket.of kind replica)[g]? = (before.bucket.of kind replica)[g]? ∨
      g ∈ before.bucket.of kind replica ∧
        ((after.bucket.of kind replica)[g]? = none ∨ (after.bucket.of kind replica)[g]? = some .damaged)
  commits : ∀ g : Nat, ∃ replica, (after.bucket.of .commits replica)[g]? = (before.bucket.of .commits replica)[g]?
  snapshots : ∃ lost : Nat, ∀ g ≠ lost, ∃ replica,
    (after.bucket.of .snapshots replica)[g]? = (before.bucket.of .snapshots replica)[g]?

/-- One replica of a generation can be read. -/
def Readable (s : Site) (kind : CatalogKind) (g : Nat) : Prop :=
  ∃ replica object, (s.bucket.of kind replica)[g]? = some object ∧ object ≠ .damaged

/-- What a load needs: a readable snapshot, unless nothing was pruned, and every commit after it. -/
structure Mendable (sha : Sha) (base : Nat) (s : Site) : Prop where
  folds : ∃ final, replay s.chain = .ok final
  verified : ∀ commit ∈ s.chain, verifyCatalogCommit sha commit = .ok ()
  fits : ∀ kind replica g object, (s.bucket.of kind replica)[g]? = some object →
    object = .damaged ∨ Fits sha s.chain kind g object
  bound : ∀ replica g, g ∈ s.bucket.of .commits replica → g ≤ s.chain.length
  commits : ∀ g, base < g → g ≤ s.chain.length → Readable s .commits g
  snapshot : base = 0 ∨ ∃ g ≥ base, Readable s .snapshots g
  legacy : s.bucket.legacy = []

section Mending

variable {sha : Sha} {base h : Nat} {s t : Site}

theorem Readable.create {kind kind' : CatalogKind} {replica : Replica} {g g' : Nat} {object : CatalogObject}
    (hr : Readable s kind' g') (habsent : (s.bucket.of kind replica)[g]? = none) :
    Readable (s.create kind replica g object) kind' g' := by
  obtain ⟨replica', object', ho, hne⟩ := hr
  refine ⟨replica', object', ?_, hne⟩
  rw [getElem?_create, if_neg]
  · exact ho
  · rintro ⟨rfl, rfl, rfl⟩
    rw [habsent] at ho
    cases ho

/-- Writing back a replica that is missing. -/
theorem Mendable.create (hm : Mendable sha base s) {kind : CatalogKind} {replica : Replica} {g : Nat}
    {object : CatalogObject} (hf : Fits sha s.chain kind g object) (habsent : (s.bucket.of kind replica)[g]? = none) :
    Mendable sha base (s.create kind replica g object) := by
  have hchain := chain_create_of_fits replica hf
  refine ⟨by rw [hchain]; exact hm.folds, by rw [hchain]; exact hm.verified, fun kind' r g' o ho => ?_,
    fun r g' hg' => ?_, fun g' hb hle => ?_, ?_, (legacy_update ..).trans hm.legacy⟩
  · rw [hchain]
    rw [getElem?_create] at ho
    split at ho
    next heq =>
      obtain ⟨rfl, rfl, rfl⟩ := heq
      cases ho
      exact .inr hf
    next => exact hm.fits _ _ _ _ ho
  · rw [hchain]
    rcases mem_create.mp hg' with ⟨rfl, rfl, rfl⟩ | hg'
    · obtain ⟨commit, rfl, h0, hc⟩ := hf
      have := (List.getElem?_eq_some_iff.mp hc).1
      omega
    · exact hm.bound r g' hg'
  · rw [hchain] at hle
    exact (hm.commits g' hb hle).create habsent
  · exact hm.snapshot.imp_right fun ⟨g', hge, hr⟩ => ⟨g', hge, hr.create habsent⟩

/-- What a mended bucket keeps for the next load. -/
structure Mends (sha : Sha) (base : Nat) (s t : Site) : Prop where
  mendable : Mendable sha base t
  chain : t.chain = s.chain
  handles : t.handles = s.handles

theorem Mends.trans {u : Site} (hst : Mends sha base s t) (htu : Mends sha base t u) : Mends sha base s u :=
  ⟨htu.mendable, htu.chain.trans hst.chain, htu.handles.trans hst.handles⟩

/-- The generations that either replica lists. -/
def listed (s : Site) (kind : CatalogKind) (offset : Option Nat) : List Nat :=
  (ExtTreeSet.ofList (((s.bucket.of kind .a).keys.filter fun g => ∀ o ∈ offset, o < g) ++
    (s.bucket.of kind .b).keys.filter fun g => ∀ o ∈ offset, o < g) compare).toList

theorem Readable.mem {kind : CatalogKind} {g : Nat} (hr : Readable s kind g) :
    ∃ replica, g ∈ s.bucket.of kind replica := by
  obtain ⟨replica, object, ho, -⟩ := hr
  exact ⟨replica, ExtTreeMap.mem_iff_isSome_getElem?.mpr (by rw [ho]; rfl)⟩

end Mending

/-! ## Damage to a written catalog -/

section Damaged

variable {sha : Sha} {before after : Site}

theorem Site.Kept.pair_le (hk : before.Kept sha) {x : Nat} (hp : before.Pair x) : x ≤ before.chain.length := by
  obtain ⟨p, q, hxp, -, hfp, -⟩ := hp
  obtain ⟨object, ho⟩ := Option.isSome_iff_exists.mp (ExtTreeMap.mem_iff_isSome_getElem?.mp (hfp .a))
  obtain ⟨state, -, rfl, hr⟩ := hk.fits _ _ _ _ ho
  exact hxp.trans hr.le

theorem fits_ne_damaged {chain : List CatalogCommit} {kind : CatalogKind} {g : Nat} {object : CatalogObject}
    (hf : Fits sha chain kind g object) : object ≠ .damaged := by
  cases kind <;> obtain ⟨_, rfl, -⟩ := hf <;> exact nofun

/-- An object that is there and was not struck on one replica is readable. -/
theorem Site.Kept.readable (hk : before.Kept sha) {kind : CatalogKind} {replica : Replica} {g : Nat}
    (hg : g ∈ before.bucket.of kind replica)
    (hsame : (after.bucket.of kind replica)[g]? = (before.bucket.of kind replica)[g]?) : Readable after kind g := by
  obtain ⟨object, ho⟩ := Option.isSome_iff_exists.mp (ExtTreeMap.mem_iff_isSome_getElem?.mp hg)
  exact ⟨replica, object, hsame.trans ho, fits_ne_damaged (hk.fits _ _ _ _ ho)⟩

theorem Damage.mendable (hk : before.Kept sha) (hd : Damage before after) : ∃ base, Mendable sha base after := by
  classical
  -- the base is the newest generation with two full snapshots after it: nothing from there on was pruned
  let base := Nat.findGreatest before.Pair before.chain.length
  have habove : ∀ g, before.Pair (g + 1) → g < base := fun g hp => Nat.le_findGreatest (hk.pair_le hp) hp
  refine
    ⟨base, by rw [hd.chain]; exact hk.folds, by rw [hd.chain]; exact hk.verified, fun kind replica g object ho => ?_,
    fun replica g hg => ?_, fun g hbase hle => ?_, ?_, hd.legacy.trans hk.legacy⟩
  · rw [hd.chain]
    rcases hd.struck kind replica g with hsame | ⟨-, hnone | hdamaged⟩
    · exact .inr (hk.fits _ _ _ _ (hsame.symm.trans ho))
    · rw [hnone] at ho; cases ho
    · rw [hdamaged] at ho; cases ho; exact .inl rfl
  · have hg : g ∈ before.bucket.of .commits replica := by
      rcases hd.struck .commits replica g with hsame | ⟨hg, -⟩
      · rwa [ExtTreeMap.mem_iff_isSome_getElem?, hsame, ← ExtTreeMap.mem_iff_isSome_getElem?] at hg
      · exact hg
    obtain ⟨object, ho⟩ := Option.isSome_iff_exists.mp (ExtTreeMap.mem_iff_isSome_getElem?.mp hg)
    obtain ⟨commit, -, h0, hc⟩ := hk.fits _ _ _ _ ho
    have := (List.getElem?_eq_some_iff.mp hc).1
    rw [hd.chain]
    omega
  · rw [hd.chain] at hle
    obtain ⟨replica, hsame⟩ := hd.commits g
    refine hk.readable ((hk.commits replica g (by omega) hle).resolve_right fun hp => ?_) hsame
    exact absurd (habove g hp) (by omega)
  · by_cases hzero : base = 0
    · exact .inl hzero
    · obtain ⟨p, q, hbp, hpq, hfp, hfq⟩ := Nat.findGreatest_of_ne_zero (rfl : base = base) hzero
      obtain ⟨lost, hlost⟩ := hd.snapshots
      by_cases hp : p = lost
      · obtain ⟨replica, hsame⟩ := hlost q (by omega)
        exact .inr ⟨q, by omega, hk.readable (hfq replica) hsame⟩
      · obtain ⟨replica, hsame⟩ := hlost p hp
        exact .inr ⟨p, hbp, hk.readable (hfp replica) hsame⟩

/-- One thing that is done to a catalog. -/
inductive Write
  | commit (mutation : CatalogMutation)
  | snapshot
  | prune (aged : List Nat)

/-- The catalog and its state after it, if it can be done. -/
def write (sha : Sha) (p : Site × CatalogState) : Write → Option (Site × CatalogState)
  | .commit mutation =>
    match p.2.commit sha mutation with
    | .error _ => none
    | .ok commit =>
      match applyCatalogMutation p.2 commit with
      | .error _ => none
      | .ok next =>
        some ((p.1.create .commits .a commit.generation (.commit commit)).create .commits .b commit.generation
          (.commit commit), next)
  | .snapshot =>
    if p.2.generation % catalogSnapshotInterval = 0 then some ((p.1.run 0 (writeCatalogSnapshot sha p.2)).2, p.2)
      else none
  | .prune aged => some (((pruneCatalog sha).run (fun op site => site.perform 0 { aged } op) p.1).2, p.2)

end Damaged

end Signy
