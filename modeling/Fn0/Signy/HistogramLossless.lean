/-
Histogram chunks read back.

What an encoding decodes to is the list with the boundaries of every run's first point (`normal`), and no proper prefix
of it decodes at all. The list itself comes back where adjacent points do not differ in the sign of a zero boundary.
-/
import Fn0.Signy.HistogramChunk

namespace Signy.HistogramChunk

open BitStream

/-! ## The cursor -/

/-- The bytes behind a cursor. -/
def Cursor.left (c : Cursor) : Bytes := c.bytes.drop c.pos

theorem takes_take (len : Nat) :
    Eff.Takes Cursor.left (take len) len id (· = "histogram chunk is truncated") := by
  intro c
  have hle := c.pos_le
  rw [take]
  simp only [Eff.sat_bind, Eff.sat_get]
  split
  next h =>
    refine ⟨(c.bytes.drop c.pos).take len, ?_, ?_, rfl⟩
    · rw [List.length_take, List.length_drop]
      omega
    · rw [Cursor.left, Cursor.left, ← List.drop_drop, List.take_append_drop]
  next h =>
    refine ⟨rfl, ?_⟩
    rw [Cursor.left, List.length_drop]
    omega

theorem consumes_take {len : Nat} {bytes : Bytes} (h : bytes.length = len) :
    Eff.Consumes Cursor.left (take len) bytes bytes := (takes_take len).consumes h

theorem consumes_getByte (byte : UInt8) : Eff.Consumes Cursor.left getByte [byte] byte :=
  Eff.Consumes.map (consumes_take rfl) fun bytes => bytes.headD 0

theorem causal_take (len : Nat) : Eff.Causal Cursor.left (take len) := (takes_take len).causal

/-! ## Varints -/

theorem or_flag (byte : UInt8) : (byte ||| 0x80) &&& 0x80 ≠ 0 ∧ (byte ||| 0x80) &&& 0x7f = byte &&& 0x7f := by
  have h : ∀ b : BitVec 8, (b ||| 0x80#8) &&& 0x80#8 ≠ 0#8 ∧ (b ||| 0x80#8) &&& 0x7f#8 = b &&& 0x7f#8 := by decide
  exact ⟨fun h0 => (h byte.toBitVec).1 (congrArg UInt8.toBitVec h0), UInt8.toBitVec_inj.mp (h byte.toBitVec).2⟩

theorem toNat_and_7f (value : Nat) : (UInt8.ofNat value &&& 0x7f).toNat = value % 128 := by
  rw [UInt8.toNat_and, UInt8.toNat_ofNat']
  have h := Nat.and_two_pow_sub_one_eq_mod (value % 256) 7
  norm_num at h ⊢
  exact h

theorem and_80_of_lt {value : Nat} (h : value < 0x80) : UInt8.ofNat value &&& 0x80 = 0 := by
  interval_cases value <;> decide

/-- A group goes above those read before it. -/
theorem or_group {read group shift : Nat} (hread : read < 2 ^ shift) (hshift : shift < 64)
    (hgroup : group < 2 ^ (64 - shift)) : read ||| (group <<< shift) % 2 ^ 64 = read + group * 2 ^ shift := by
  have hlt : group * 2 ^ shift < 2 ^ 64 := by
    calc group * 2 ^ shift < 2 ^ (64 - shift) * 2 ^ shift := Nat.mul_lt_mul_of_pos_right hgroup (by positivity)
      _ = 2 ^ 64 := by rw [← Nat.pow_add]; congr 1; omega
  rw [Nat.shiftLeft_eq, Nat.mod_eq_of_lt hlt, Nat.or_comm, ← Nat.shiftLeft_eq, ← Nat.shiftLeft_add_eq_or_of_lt hread,
    Nat.shiftLeft_eq, Nat.add_comm]

section Groups

variable {value read shift : Nat} (bytes : Nat) (hread : read < 2 ^ shift) (hshift : shift < 64)
  (hvalue : value < 2 ^ (64 - shift))
include hread hshift hvalue

theorem consumes_last_group (h : value < 0x80) :
    Eff.Consumes Cursor.left (getUvarintFrom read shift (bytes + 1)) [UInt8.ofNat value]
      (read + value * 2 ^ shift) := by
  rw [getUvarintFrom]
  refine (consumes_getByte _).andThen ?_
  dsimp only
  rw [if_neg (by omega), if_pos (and_80_of_lt h), toNat_and_7f, Nat.mod_eq_of_lt h, or_group hread hshift hvalue]
  exact Eff.consumes_pure _

theorem consumes_group (h : 0x80 ≤ value) {rest : Bytes} {result : Nat}
    (hrest : Eff.Consumes Cursor.left (getUvarintFrom (read + value % 128 * 2 ^ shift) (shift + 7) bytes) rest result) :
    Eff.Consumes Cursor.left (getUvarintFrom read shift (bytes + 1)) ((UInt8.ofNat value ||| 0x80) :: rest) result := by
  obtain ⟨hflag, hlow⟩ := or_flag (UInt8.ofNat value)
  rw [getUvarintFrom]
  refine (consumes_getByte _).bind_cons ?_
  dsimp only
  rw [if_neg (by omega), if_neg hflag, hlow, toNat_and_7f, or_group hread hshift (by omega)]
  exact hrest

end Groups

theorem consumes_getUvarintFrom (groups : Nat) : ∀ {value read shift bytes : Nat}, read < 2 ^ shift → shift < 64 →
    value < 2 ^ (64 - shift) → value < 128 ^ (groups + 1) → groups < bytes →
    Eff.Consumes Cursor.left (getUvarintFrom read shift bytes) (putGroups groups value) (read + value * 2 ^ shift) := by
  induction groups with
  | zero =>
    intro value read shift bytes hread hshift hvalue hgroups hbytes
    obtain ⟨bytes, rfl⟩ := Nat.exists_eq_succ_of_ne_zero (by omega : bytes ≠ 0)
    exact consumes_last_group bytes hread hshift hvalue hgroups
  | succ groups ih =>
    intro value read shift bytes hread hshift hvalue hgroups hbytes
    obtain ⟨bytes, rfl⟩ := Nat.exists_eq_succ_of_ne_zero (by omega : bytes ≠ 0)
    rw [putGroups]
    split
    next h =>
      -- a value of two groups has room for the next shift
      have hroom : 7 < 64 - shift := (Nat.pow_lt_pow_iff_right (by decide : 1 < 2)).mp (lt_of_le_of_lt h hvalue)
      have hsplit : read + value * 2 ^ shift = read + value % 128 * 2 ^ shift + value / 128 * 2 ^ (shift + 7) := by
        conv_lhs => rw [← Nat.div_add_mod value 128]
        ring
      rw [Nat.shiftRight_eq_div_pow, hsplit]
      refine consumes_group bytes hread hshift hvalue h (ih ?_ (by omega) ?_ ?_ (by omega))
      · have hlow : value % 128 * 2 ^ shift ≤ 127 * 2 ^ shift := Nat.mul_le_mul_right _ (by omega)
        rw [Nat.pow_add]
        omega
      · rw [Nat.div_lt_iff_lt_mul (by decide), ← Nat.pow_add]
        exact hvalue.trans_le (Nat.pow_le_pow_right (by decide) (by omega))
      · rw [Nat.div_lt_iff_lt_mul (by decide)]
        exact hgroups.trans_le (Nat.pow_succ 128 (groups + 1)).le
    next h => exact consumes_last_group bytes hread hshift hvalue (by omega)

theorem consumes_getUvarint {value : Nat} (h : value < 2 ^ 64) :
    Eff.Consumes Cursor.left getUvarint (putUvarint value) value := by
  have hread := @consumes_getUvarintFrom 9 value 0 0 11 (by decide) (by decide) h (h.trans (by decide)) (by decide)
  rwa [Nat.zero_add, Nat.pow_zero, Nat.mul_one] at hread

theorem consumes_getIvarint (value : BitVec 64) : Eff.Consumes Cursor.left getIvarint (putIvarint value) value := by
  have hread := (consumes_getUvarint (zigzag value).isLt).map fun word => unzigzag (BitVec.ofNat 64 word)
  rwa [BitVec.ofNat_toNat, BitVec.setWidth_eq, unzigzag_zigzag] at hread

theorem add_delta (previous value : BitVec 64) : previous + (value - previous) = value := by
  rw [BitVec.add_comm, BitVec.sub_add_cancel]

/-! ## Points -/

theorem consumes_getFloat (bits : UInt64) : Eff.Consumes Cursor.left getFloat (Bytes.ofNatLE 8 bits.toNat) bits := by
  have hread := (consumes_take (Bytes.length_ofNatLE 8 bits.toNat)).map fun raw => UInt64.ofNat (Bytes.toNatLE raw)
  rwa [Bytes.toNatLE_ofNatLE (bits.toNat_lt.trans_le (by decide)), UInt64.ofNat_toNat] at hread

theorem consumes_getFloats (bounds : List UInt64) : Eff.Consumes Cursor.left (getFloats bounds.length)
    (bounds.flatMap fun bound => Bytes.ofNatLE 8 bound.toNat) bounds := by
  induction bounds with
  | nil => exact Eff.consumes_pure []
  | cons bound bounds ih => exact (consumes_getFloat bound).bind (ih.map (bound :: ·))

theorem consumes_getSum (sum : Option UInt64) : Eff.Consumes Cursor.left getSum (putSum sum) sum := by
  cases sum with
  | none => exact (consumes_getByte 0).bind_cons (Eff.consumes_pure none)
  | some sum => exact (consumes_getByte 1).bind_cons ((consumes_getFloat sum).map some)

theorem consumes_getCumulative : ∀ {previous : List (BitVec 64)} {values : List UInt64},
    values.length = previous.length →
    Eff.Consumes Cursor.left (getCumulative previous) (putCumulative previous values).1 (values.map UInt64.toBitVec) ∧
      (putCumulative previous values).2 = values.map UInt64.toBitVec
  | [], [], _ => ⟨Eff.consumes_pure [], rfl⟩
  | slot :: previous, value :: values, h => by
    obtain ⟨hread, hnext⟩ := @consumes_getCumulative previous values (Nat.succ.inj h)
    rw [putCumulative, getCumulative]
    refine ⟨(consumes_getIvarint _).bind ?_, congrArg _ hnext⟩
    dsimp only
    rw [add_delta]
    exact hread.map (value.toBitVec :: ·)

/-- A point under the boundaries of its run. -/
def withBounds (bounds : List UInt64) (point : Point) : Point := (point.1, { point.2 with bounds := bounds })

theorem consumes_getPoints (bounds : List UInt64) (points : List Point) : ∀ {ts count : BitVec 64}
    {cumulative : List (BitVec 64)}, (∀ point ∈ points, point.2.cumulative.length = cumulative.length) →
    Eff.Consumes Cursor.left (getPoints bounds ts count cumulative points.length) (putPoints ts count cumulative points)
      (points.map (withBounds bounds)) := by
  induction points with
  | nil => exact fun _ => Eff.consumes_pure []
  | cons point points ih =>
    intro ts count cumulative h
    obtain ⟨stamp, point⟩ := point
    obtain ⟨hpoint, hpoints⟩ := List.forall_mem_cons.mp h
    obtain ⟨hcumulative, hnext⟩ := consumes_getCumulative hpoint
    have hrest := @ih stamp point.count.toBitVec (point.cumulative.map UInt64.toBitVec)
      fun q hq => by rw [List.length_map, hpoints q hq, hpoint]
    rw [List.length_cons, getPoints, putPoints]
    dsimp only
    rw [hnext]
    simp only [List.append_assoc]
    refine (consumes_getIvarint _).bind ?_
    rw [add_delta]
    refine (consumes_getIvarint _).bind ?_
    rw [add_delta]
    refine (consumes_getSum point.sum).bind (hcumulative.bind ?_)
    have hback : (point.cumulative.map UInt64.toBitVec).map UInt64.ofBitVec = point.cumulative := by
      simp [Function.comp_def]
    rw [hback]
    exact hrest.map ((stamp, { point with bounds := bounds }) :: ·)

/-! ## Runs -/

/-- What can be held and is well formed: a count for every boundary, and lengths that are a `usize`. -/
structure Held (points : List Point) : Prop where
  length_lt : points.length < 2 ^ 64
  bounds_lt : ∀ point ∈ points, point.2.bounds.length < 2 ^ 64
  cumulative : ∀ point ∈ points, point.2.cumulative.length = point.2.bounds.length

theorem length_eq_of_boundsEq : ∀ {as bs : List UInt64}, boundsEq as bs = true → as.length = bs.length
  | [], [], _ => rfl
  | _ :: as, _ :: bs, h => by
    rw [boundsEq, Bool.and_eq_true] at h
    exact congrArg (· + 1) (length_eq_of_boundsEq h.2)

/-- A run: its points have as many boundaries as its first. -/
def IsRun (run : List Point) : Prop :=
  ∃ first rest, run = first :: rest ∧ ∀ point ∈ run, point.2.bounds.length = first.2.bounds.length

theorem runsFrom_spec (points : List Point) : ∀ {start : Point} {rest : List Point},
    (∀ point ∈ start :: rest, point.2.bounds.length = start.2.bounds.length) →
    (runsFrom start (start :: rest) points).flatten = start :: rest ++ points ∧
      ∀ run ∈ runsFrom start (start :: rest) points, IsRun run := by
  induction points with
  | nil =>
    intro start rest h
    refine ⟨by simp [runsFrom], fun run hrun => ?_⟩
    obtain rfl := List.mem_singleton.mp hrun
    exact ⟨start, rest, rfl, h⟩
  | cons point points ih =>
    intro start rest h
    rw [runsFrom]
    split
    · obtain ⟨hflat, hruns⟩ := @ih point [] (by simp)
      refine ⟨by simp [hflat], List.forall_mem_cons.mpr ⟨⟨start, rest, rfl, h⟩, hruns⟩⟩
    next hsame =>
      have hlength : point.2.bounds.length = start.2.bounds.length := length_eq_of_boundsEq (by simpa using hsame)
      rw [List.cons_append]
      obtain ⟨hflat, hruns⟩ := @ih start (rest ++ [point]) (by
        rw [← List.cons_append]
        intro q hq
        rcases List.mem_append.mp hq with hq | hq
        · exact h q hq
        · rw [List.mem_singleton.mp hq, hlength])
      exact ⟨by rw [hflat]; simp, hruns⟩

theorem runs_spec (points : List Point) :
    (runs points).flatten = points ∧ ∀ run ∈ runs points, IsRun run := by
  cases points with
  | nil => exact ⟨rfl, nofun⟩
  | cons point points => exact runsFrom_spec points (by simp)

theorem length_runsFrom_le (points : List Point) :
    ∀ start run, (runsFrom start run points).length ≤ points.length + 1 := by
  induction points with
  | nil => exact fun _ _ => le_rfl
  | cons point points ih =>
    intro start run
    rw [runsFrom]
    split
    · exact Nat.succ_le_succ (ih _ _)
    · exact (ih _ _).trans (Nat.le_succ _)

theorem length_runs_le (points : List Point) : (runs points).length ≤ points.length := by
  cases points with
  | nil => exact le_rfl
  | cons point points => exact length_runsFrom_le points point [point]

/-- A run as it is read back. -/
def normalRun : List Point → List Point
  | [] => []
  | first :: rest => (first :: rest).map (withBounds first.2.bounds)

/-- A list as it is read back. -/
def normal (points : List Point) : List Point := (runs points).flatMap normalRun

theorem consumes_getRun {run : List Point} (hrun : IsRun run) (hheld : Held run) :
    Eff.Consumes Cursor.left getRun (putRun run) (normalRun run) := by
  obtain ⟨first, rest, rfl, hlength⟩ := hrun
  obtain ⟨ts, first⟩ := first
  rw [putRun, normalRun, getRun]
  dsimp only
  simp only [List.append_assoc]
  refine (consumes_getUvarint (hheld.bounds_lt _ List.mem_cons_self)).bind
    ((consumes_getFloats first.bounds).bind ((consumes_getUvarint hheld.length_lt).bind ?_))
  refine consumes_getPoints first.bounds _ fun point hpoint => ?_
  rw [List.length_replicate, hheld.cumulative point hpoint, hlength point hpoint]

theorem consumes_getRuns (rs : List (List Point)) (h : ∀ run ∈ rs, IsRun run ∧ Held run) :
    Eff.Consumes Cursor.left (getRuns rs.length) (rs.flatMap putRun) (rs.flatMap normalRun) := by
  induction rs with
  | nil => exact Eff.consumes_pure []
  | cons run rs ih =>
    obtain ⟨⟨hrun, hheld⟩, hrest⟩ := List.forall_mem_cons.mp h
    exact (consumes_getRun hrun hheld).bind ((ih hrest).map (normalRun run ++ ·))

theorem held_of_mem_runs {points run : List Point} (h : Held points) (hrun : run ∈ runs points) : Held run := by
  have hmem : ∀ point ∈ run, point ∈ points := fun point hpoint =>
    (runs_spec points).1 ▸ List.mem_flatten.mpr ⟨run, hrun, hpoint⟩
  have hlength : run.length ≤ points.length := by
    conv_rhs => rw [← (runs_spec points).1]
    exact (List.sublist_flatten_of_mem hrun).length_le
  exact ⟨hlength.trans_lt h.length_lt, fun p hp => h.bounds_lt p (hmem p hp), fun p hp => h.cumulative p (hmem p hp)⟩

theorem consumes_encode {points : List Point} (h : Held points) :
    Eff.Consumes Cursor.left (getUvarint >>= getRuns) (encode points) (normal points) :=
  (consumes_getUvarint ((length_runs_le points).trans_lt h.length_lt)).bind
    (consumes_getRuns (runs points) fun run hrun => ⟨(runs_spec points).2 run hrun, held_of_mem_runs h hrun⟩)

/-- **What an encoding decodes to.** -/
theorem decode_encode {points : List Point} (h : Held points) : decode (encode points) = .ok (normal points) := by
  obtain ⟨c, hc, hleft⟩ := consumes_encode h { bytes := encode points } [] (List.append_nil _).symm
  have hend : c.pos = c.bytes.length := le_antisymm c.pos_le (List.drop_eq_nil_iff.mp hleft)
  rw [decode, hc]
  simp [hend]

/-! ## Proper prefixes -/

theorem causal_getByte : Eff.Causal Cursor.left getByte := (causal_take 1).bind fun _ => Eff.causal_pure _

theorem causal_getUvarintFrom (bytes : Nat) : ∀ read shift, Eff.Causal Cursor.left
    (getUvarintFrom read shift bytes) := by
  induction bytes with
  | zero => exact fun _ _ => Eff.causal_throw _
  | succ bytes ih =>
    intro read shift
    refine causal_getByte.bind fun byte => ?_
    split
    · exact Eff.causal_throw _
    · dsimp only
      split
      · exact Eff.causal_pure _
      · exact ih _ _

theorem causal_getUvarint : Eff.Causal Cursor.left getUvarint := causal_getUvarintFrom 11 0 0

theorem causal_getIvarint : Eff.Causal Cursor.left getIvarint := causal_getUvarint.bind fun _ => Eff.causal_pure _

theorem causal_getFloat : Eff.Causal Cursor.left getFloat := (causal_take 8).bind fun _ => Eff.causal_pure _

theorem causal_getFloats (count : Nat) : Eff.Causal Cursor.left (getFloats count) := by
  induction count with
  | zero => exact Eff.causal_pure _
  | succ count ih => exact causal_getFloat.bind fun _ => ih.bind fun _ => Eff.causal_pure _

theorem causal_getSum : Eff.Causal Cursor.left getSum := by
  refine causal_getByte.bind fun flag => ?_
  split
  · exact Eff.causal_pure _
  · split
    · exact causal_getFloat.bind fun _ => Eff.causal_pure _
    · exact Eff.causal_throw _

theorem causal_getCumulative (slots : List (BitVec 64)) : Eff.Causal Cursor.left (getCumulative slots) := by
  induction slots with
  | nil => exact Eff.causal_pure _
  | cons slot slots ih => exact causal_getIvarint.bind fun _ => ih.bind fun _ => Eff.causal_pure _

theorem causal_getPoints (bounds : List UInt64) (points : Nat) : ∀ ts count cumulative,
    Eff.Causal Cursor.left (getPoints bounds ts count cumulative points) := by
  induction points with
  | zero => exact fun _ _ _ => Eff.causal_pure _
  | succ points ih =>
    intro ts count cumulative
    exact causal_getIvarint.bind fun _ => causal_getIvarint.bind fun _ => causal_getSum.bind fun _ =>
      (causal_getCumulative cumulative).bind fun _ => (ih _ _ _).bind fun _ => Eff.causal_pure _

theorem causal_getRun : Eff.Causal Cursor.left getRun :=
  causal_getUvarint.bind fun _ => (causal_getFloats _).bind fun _ => causal_getUvarint.bind fun _ =>
    causal_getPoints _ _ _ _ _

theorem causal_getRuns (count : Nat) : Eff.Causal Cursor.left (getRuns count) := by
  induction count with
  | zero => exact Eff.causal_pure _
  | succ count ih => exact causal_getRun.bind fun _ => ih.bind fun _ => Eff.causal_pure _

theorem decode_cut {points : List Point} (h : Held points) {part : Bytes} (hpart : part <+: encode points)
    (hproper : part ≠ encode points) : ∃ e, decode part = .error e := by
  obtain ⟨missing, hmissing⟩ := hpart
  have hne : missing ≠ [] := by
    rintro rfl
    exact hproper (by rw [← hmissing, List.append_nil])
  have hwhole : Cursor.left { bytes := encode points } = encode points ++ [] := (List.append_nil _).symm
  have hcut : Cursor.left { bytes := encode points } = Cursor.left { bytes := part } ++ missing := hmissing.symm
  have hrefuses := (causal_getUvarint.bind causal_getRuns).refuses_cut (consumes_encode h) hwhole hcut
    (List.length_pos_iff.mpr hne)
  rw [decode]
  rcases hrun : (getUvarint >>= getRuns).exec { bytes := part } with ⟨e | read, c⟩
  · exact ⟨e, rfl⟩
  · exact absurd hrun (hrefuses read c)

/-! ## Adjacent boundaries -/

/-- The points behind one that started a run, as they are read back. -/
def normalFrom (start : Point) : List Point → List Point
  | [] => []
  | point :: points =>
    if boundsEq point.2.bounds start.2.bounds then withBounds start.2.bounds point :: normalFrom start points
    else point :: normalFrom point points

theorem withBounds_self (point : Point) : withBounds point.2.bounds point = point := rfl

theorem flatMap_runsFrom (points : List Point) : ∀ (start : Point) (rest : List Point),
    (runsFrom start (start :: rest) points).flatMap normalRun =
      (start :: rest).map (withBounds start.2.bounds) ++ normalFrom start points := by
  induction points with
  | nil =>
    intro start rest
    simp [runsFrom, normalRun, normalFrom]
  | cons point points ih =>
    intro start rest
    rw [runsFrom, normalFrom]
    cases hsame : boundsEq point.2.bounds start.2.bounds with
    | false =>
      have h := ih point []
      rw [List.map_singleton, withBounds_self] at h
      simp [h, normalRun]
    | true =>
      have h := ih start (rest ++ [point])
      simpa using h

theorem normal_cons (point : Point) (points : List Point) :
    normal (point :: points) = point :: normalFrom point points :=
  flatMap_runsFrom points point []

/-- Boundaries that are equal as floats have the same bits. -/
def BitsAgree (p q : Point) : Prop := boundsEq q.2.bounds p.2.bounds = true → q.2.bounds = p.2.bounds

instance (p q : Point) : Decidable (BitsAgree p q) := inferInstanceAs (Decidable (_ → _))

theorem withBounds_eq_self {bounds : List UInt64} {point : Point} :
    withBounds bounds point = point ↔ point.2.bounds = bounds := by
  constructor
  · intro h
    rw [← h]
    rfl
  · rintro rfl
    rfl

/-- From a point with the bits its run began with, the rest comes back exactly when neighbours agree. -/
theorem normalFrom_eq_self_iff (points : List Point) : ∀ {start previous : Point},
    previous.2.bounds = start.2.bounds → (normalFrom start points = points ↔
      (previous :: points).IsChain BitsAgree) := by
  induction points with
  | nil =>
    intro start previous _
    simp [normalFrom]
  | cons point points ih =>
    intro start previous hprevious
    rw [normalFrom, List.isChain_cons_cons, BitsAgree, hprevious]
    cases hsame : boundsEq point.2.bounds start.2.bounds with
    | false => simpa using @ih point point rfl
    | true =>
      rw [if_pos rfl, List.cons_eq_cons, withBounds_eq_self]
      simp only [forall_const]
      exact and_congr_right fun hbits => ih hbits

/-- A list comes back as it was exactly when no two neighbours differ in the sign of a zero boundary. -/
theorem normal_eq_self_iff (points : List Point) : normal points = points ↔ points.IsChain BitsAgree := by
  cases points with
  | nil => simp [normal, runs]
  | cons point points =>
    rw [normal_cons, List.cons_eq_cons]
    simpa using normalFrom_eq_self_iff points rfl

/-- **The chunk codec.** An encoding decodes to the list it was made from, and no proper prefix of it decodes, exactly
when no two adjacent points have boundaries that are equal as floats and differ in their bits. -/
theorem histogram_chunk_iff (points : List Point) (h : Held points) :
    (decode (encode points) = .ok points ∧
      ∀ part, part <+: encode points → part ≠ encode points → ∃ e, decode part = .error e) ↔
    points.IsChain BitsAgree := by
  rw [decode_encode h, Except.ok.injEq, normal_eq_self_iff]
  exact and_iff_left fun part hpart hproper => decode_cut h hpart hproper

/-- Zeros of either sign with two points between them that share their boundaries. -/
def apartPoints : List Point :=
  [(0, { bounds := [0], cumulative := [1], sum := none, count := 1 }),
    (1, { bounds := [0x3ff0000000000000], cumulative := [2], sum := some 0x4014000000000000, count := 3 }),
    (2, { bounds := [0x3ff0000000000000], cumulative := [5], sum := none, count := 6 }),
    (3, { bounds := [0x8000000000000000], cumulative := [2], sum := none, count := 2 })]

theorem histogram_chunk_iff_apartPoints : decode (encode apartPoints) = .ok apartPoints ∧
    ∀ part, part <+: encode apartPoints → part ≠ encode apartPoints → ∃ e, decode part = .error e := by
  have hheld : Held apartPoints := by constructor <;> simp [apartPoints]
  exact (histogram_chunk_iff apartPoints hheld).mpr (by decide)

/-- Two points whose only boundary is a zero, of either sign. -/
def zeroPoints : List Point :=
  [(0, { bounds := [0], cumulative := [1], sum := none, count := 1 }),
    (1, { bounds := [0x8000000000000000], cumulative := [2], sum := none, count := 2 })]

/-- The second point is read back with the first one's zero. -/
theorem zero_sign_lost : decode (encode zeroPoints) =
    .ok [(0, { bounds := [0], cumulative := [1], sum := none, count := 1 }),
      (1, { bounds := [0], cumulative := [2], sum := none, count := 2 })] ∧
    decode (encode zeroPoints) ≠ .ok zeroPoints := by
  decide +kernel

end Signy.HistogramChunk
