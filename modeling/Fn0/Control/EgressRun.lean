/-
Egress quota is not overspent.

Two things are kept at every step. The months that control reads for a request are not earlier than the month its worker
read. And for each month the bytes that accepted charges took, the credit that workers hold and the grants that are on
their way add up to no more than what control recorded.
-/
import Mathlib
import Fn0.Control.Egress

namespace Egress

/-! ## Sums over lists -/

theorem sum_map_set {α : Type} (f : α → Nat) {l : List α} {i : Nat} {a : α} (h : l[i]? = some a) (b : α) :
    ((l.set i b).map f).sum + f a = (l.map f).sum + f b := by
  induction l generalizing i with
  | nil => cases h
  | cons x l ih =>
    cases i with
    | zero =>
      cases h
      simp only [List.set_cons_zero, List.map_cons, List.sum_cons]
      omega
    | succ i =>
      have := ih (i := i) h
      simp only [List.set_cons_succ, List.map_cons, List.sum_cons]
      omega

theorem sum_map_eraseIdx {α : Type} (f : α → Nat) {l : List α} {i : Nat} {a : α} (h : l[i]? = some a) :
    ((l.eraseIdx i).map f).sum + f a = (l.map f).sum := by
  induction l generalizing i with
  | nil => cases h
  | cons x l ih =>
    cases i with
    | zero =>
      cases h
      simp only [List.eraseIdx_cons_zero, List.map_cons, List.sum_cons]
      omega
    | succ i =>
      have := ih (i := i) h
      simp only [List.eraseIdx_cons_succ, List.map_cons, List.sum_cons]
      omega

theorem sum_map_eraseIdx_le {α : Type} (f : α → Nat) (l : List α) (i : Nat) :
    ((l.eraseIdx i).map f).sum ≤ (l.map f).sum := by
  cases h : l[i]? with
  | none => rw [List.eraseIdx_of_length_le (List.getElem?_eq_none_iff.mp h)]
  | some a =>
    have := sum_map_eraseIdx f h
    omega

theorem le_sum_map {α : Type} (f : α → Nat) {l : List α} {a : α} (h : a ∈ l) : f a ≤ (l.map f).sum :=
  List.le_sum_of_mem (List.mem_map_of_mem h)

/-! ## Machine arithmetic in range -/

theorem subU64_of_le {a b : Nat} (hle : b ≤ a) (ha : a < 2 ^ 64) : subU64 a b = (a - b, true) := by
  unfold subU64
  rw [show 2 ^ 64 + a - b = (a - b) + 2 ^ 64 by omega, Nat.add_mod_right, Nat.mod_eq_of_lt (by omega)]
  simp [hle]

theorem addU64_of_lt {a b : Nat} (h : a + b < 2 ^ 64) : addU64 a b = (a + b, true) := by
  unfold addU64
  rw [Nat.mod_eq_of_lt h, decide_eq_true h]

/-- A charge that waits lacks what the credit does not have, and was made in the month of the credit. -/
structure Waiting.Fits (waiting : Waiting) (credit : ProjectCredit) : Prop where
  lacks : credit.availableBytes < waiting.byteCount
  minimum : waiting.minimumBytes = waiting.byteCount - credit.availableBytes
  bound : waiting.byteCount < 2 ^ 64
  month : waiting.readMonth = credit.month

namespace System

variable {s t : System}

/-! ## The limit -/

/-- What control records stays in the range of its counter and below the limit. -/
structure Counted (s : System) : Prop where
  usage : ∀ month, s.usage month < 2 ^ 64
  limited : s.Limited

/-- A grant that is answered is what is added to the record. -/
structure Grants (quota : Option MonthlyEgressLimit) (already month : Nat) (result : Response × Nat × Bool) : Prop where
  inRange : result.2.2 = true
  total : result.2.1 < 2 ^ 64
  limited : ∀ limit, quota = some (.bytes limit) → already ≤ limit.toNat → result.2.1 ≤ limit.toNat
  granted : ∀ m grantedBytes, result.1 = .granted m grantedBytes → m = month ∧ result.2.1 = already + grantedBytes
  refused : already ≤ result.2.1

theorem grants_grantEgress (quota : Option MonthlyEgressLimit) {already : Nat} (h : already < 2 ^ 64)
    (month requestedBytes minimumBytes : Nat) :
    Grants quota already month (grantEgress quota already month requestedBytes minimumBytes) := by
  have hrefused : ∀ {response : Response}, (∀ m g, response ≠ .granted m g) →
    Grants quota already month (response, already, true) :=
    fun hne => ⟨rfl, h, fun _ _ hle => hle, fun m g heq => absurd heq (hne m g), le_rfl⟩
  -- what is left of the quota
  have hgrant : ∀ {remaining : Nat}, already + remaining < 2 ^ 64 →
      (∀ limit, quota = some (.bytes limit) → remaining = limit.toNat - already) →
      Grants quota already month (if remaining = 0 ∨ remaining < minimumBytes then
        (.quotaExhausted month, already, true)
        else (.granted month (min requestedBytes remaining), (addU64 already (min requestedBytes remaining)).1,
          true && (addU64 already (min requestedBytes remaining)).2)) := by
    intro remaining hrange hquota
    split
    · exact hrefused nofun
    · rw [addU64_of_lt (by omega)]
      refine ⟨rfl, by dsimp only; omega, fun limit hlimit hle => ?_, fun m g heq => ?_, by dsimp only; omega⟩
      · have := hquota limit hlimit
        dsimp only
        omega
      · cases heq
        exact ⟨rfl, rfl⟩
  unfold grantEgress
  split
  · exact hrefused nofun
  next limit =>
    cases limit with
    | bytes limit =>
      have := limit.toNat_lt
      dsimp only
      refine hgrant (by omega) fun limit' heq => ?_
      cases heq
      rfl
    | unlimited =>
      dsimp only
      rw [subU64_of_le (by omega) (by omega)]
      exact hgrant (by omega) fun limit' heq => by cases heq

theorem Counted.commit (h : s.Counted) (i : Nat) (request : Request) (month : Nat) :
    (s.commit i request month).Counted := by
  unfold System.commit
  split
  · exact ⟨h.usage, h.limited⟩
  · have hg := grants_grantEgress s.quota (h.usage month) month request.requestedBytes request.minimumBytes
    refine ⟨fun m => ?_, fun limit hlimit m => ?_⟩
    · dsimp only
      rw [Function.update_apply]
      split
      · exact hg.total
      · exact h.usage m
    · dsimp only
      rw [Function.update_apply]
      split
      · exact hg.limited limit hlimit (h.limited limit hlimit month)
      · exact h.limited limit hlimit m

theorem counted_of_usage (hu : t.usage = s.usage) (hq : t.quota = s.quota) (h : s.Counted) : t.Counted :=
  ⟨by rw [hu]; exact h.usage, by rw [Limited, hu, hq]; exact h.limited⟩

theorem usage_charge (s : System) (w : Nat) (worker : Worker) (byteCount : Nat) (quick : Bool) :
    (s.charge w worker byteCount quick).usage = s.usage ∧ (s.charge w worker byteCount quick).quota = s.quota := by
  unfold System.charge
  split
  · exact ⟨rfl, rfl⟩
  · dsimp only
    split <;> exact ⟨rfl, rfl⟩

theorem usage_deliver (s : System) (i w : Nat) (worker : Worker) (waiting : Waiting) (response : Response) :
    (s.deliver i w worker waiting response).usage = s.usage ∧
      (s.deliver i w worker waiting response).quota = s.quota := by
  unfold System.deliver
  split <;> exact ⟨rfl, rfl⟩

/-- What each action does, and when it is possible. -/
inductive Moves (s : System) : Action → System → Prop
  | join : Moves s .join { s with workers := s.workers ++ [{}] }
  | tick : Moves s .tick { s with clock := s.clock + 1 }
  | charge {w : Nat} {credit : ProjectCredit} (byteCount : UInt64) (quick : Bool) : s.workers[w]? = some
      ⟨credit, none⟩ →
      Moves s (.charge w byteCount quick) (s.charge w ⟨credit, none⟩ byteCount.toNat quick)
  | stamp {i ticket requestedBytes minimumBytes : Nat} : s.requests[i]? = some
      ⟨ticket, requestedBytes, minimumBytes, none⟩ →
      Moves s (.stamp i) { s with requests := s.requests.set i ⟨ticket, requestedBytes, minimumBytes, some s.clock⟩ }
  | commit {i month : Nat} {request : Request} : s.requests[i]? = some request → request.month = some month →
      Moves s (.commit i) (s.commit i request month)
  | refuse {i : Nat} {request : Request} {response : Response} : s.requests[i]? = some request →
      (∀ m g, response ≠ .granted m g) → Moves s (.refuse i response)
        { s with requests := s.requests.eraseIdx i, responses := (request.ticket, response) :: s.responses }
  | loseRequest (i : Nat) : Moves s (.loseRequest i) { s with requests := s.requests.eraseIdx i }
  | deliver {i w : Nat} {response : Response} {credit : ProjectCredit} {waiting : Waiting} :
      s.responses[i]? = some (waiting.ticket, response) → s.workers[w]? = some ⟨credit, some waiting⟩ →
      Moves s (.deliver i w) (s.deliver i w ⟨credit, some waiting⟩ waiting response)
  | loseResponse (i : Nat) : Moves s (.loseResponse i) { s with responses := s.responses.eraseIdx i }
  | timeout {w : Nat} {credit : ProjectCredit} {waiting : Waiting} : s.workers[w]? = some ⟨credit, some waiting⟩ →
      Moves s (.timeout w)
        { s with workers := s.workers.set w ⟨credit, none⟩, denied := .budgetUnavailable :: s.denied }
  | restart {w : Nat} {worker : Worker} : s.workers[w]? = some worker →
      Moves s (.restart w) { s with workers := s.workers.set w {} }

theorem moves_of_step {action : Action} (h : s.step action = some t) : s.Moves action t := by
  cases action with
  | join => cases h; exact .join
  | tick => cases h; exact .tick
  | loseRequest i => cases h; exact .loseRequest i
  | loseResponse i => cases h; exact .loseResponse i
  | charge w byteCount quick =>
    simp only [System.step] at h
    split at h <;> cases h
    exact .charge byteCount quick ‹_›
  | stamp i =>
    simp only [System.step] at h
    split at h <;> cases h
    exact .stamp ‹_›
  | commit i =>
    simp only [System.step] at h
    split at h <;> cases h
    exact .commit ‹_› rfl
  | refuse i response =>
    simp only [System.step] at h
    split at h <;> cases h
    next request hrequest hne => exact .refuse hrequest fun m g heq => hne m g heq
  | deliver i w =>
    simp only [System.step] at h
    split at h
    next ticket response credit waiting hresponse hworker =>
      split at h <;> cases h
      next heq =>
        subst heq
        exact .deliver hresponse hworker
    next => cases h
  | timeout w =>
    simp only [System.step] at h
    split at h <;> cases h
    exact .timeout ‹_›
  | restart w =>
    simp only [System.step] at h
    split at h <;> cases h
    exact .restart ‹_›

/-- **The limit.** Whatever happens, control records no more than the limit of a month. -/
theorem Counted.moves (h : s.Counted) {action : Action} (hmoves : s.Moves action t) : t.Counted := by
  cases hmoves with
  | charge => exact counted_of_usage (usage_charge ..).1 (usage_charge ..).2 h
  | deliver => exact counted_of_usage (usage_deliver ..).1 (usage_deliver ..).2 h
  | commit => exact h.commit ..
  | _ => exact ⟨h.usage, h.limited⟩

theorem quota_moves {action : Action} (hmoves : s.Moves action t) : t.quota = s.quota := by
  cases hmoves with
  | charge => exact (usage_charge ..).2
  | deliver => exact (usage_deliver ..).2
  | commit =>
    unfold System.commit
    split <;> rfl
  | _ => rfl

theorem counted_start (quota : Option MonthlyEgressLimit) : Counted { quota } :=
  ⟨fun _ => by dsimp only; omega, fun _ _ _ => Nat.zero_le _⟩

/-! ## Months -/

/-- Control read a month for the request of a ticket, and the request or its grant is on its way. -/
def Dated (s : System) (ticket month : Nat) : Prop :=
  (∃ request ∈ s.requests, request.ticket = ticket ∧ request.month = some month) ∨
    ∃ grantedBytes, (ticket, .granted month grantedBytes) ∈ s.responses

structure WorkerFits (s : System) (worker : Worker) : Prop where
  month : worker.credit.month ≤ s.clock
  waiting : ∀ waiting, worker.waiting = some waiting → waiting.Fits worker.credit ∧ waiting.ticket < s.tickets ∧
    ∀ month, s.Dated waiting.ticket month → waiting.readMonth ≤ month

/-- The months that control reads are not earlier than those that the workers read. -/
structure Timely (s : System) : Prop where
  workers : ∀ worker ∈ s.workers, s.WorkerFits worker
  requests : ∀ request ∈ s.requests, request.ticket < s.tickets
  dated : ∀ ticket month, s.Dated ticket month → ticket < s.tickets ∧ month ≤ s.clock

theorem WorkerFits.idle {credit : ProjectCredit} (h : credit.month ≤ s.clock) : s.WorkerFits ⟨credit, none⟩ :=
  ⟨h, nofun⟩

/-- Time goes on, tickets are drawn, and nothing is dated that was not, or it is dated now. -/
theorem WorkerFits.later {worker : Worker} (h : s.WorkerFits worker) (hclock : s.clock ≤ t.clock)
    (htickets : s.tickets ≤ t.tickets)
    (hdated : ∀ ticket month, ticket < s.tickets → t.Dated ticket month → s.Dated ticket month ∨ s.clock ≤ month) :
    t.WorkerFits worker := by
  refine ⟨h.month.trans hclock, fun waiting hw => ?_⟩
  obtain ⟨hfits, hticket, hread⟩ := h.waiting waiting hw
  refine ⟨hfits, by omega, fun month hm => ?_⟩
  rcases hdated _ month hticket hm with hm | hm
  · exact hread month hm
  · rw [hfits.month]
    exact h.month.trans hm

theorem Timely.later (h : s.Timely) (hworkers : t.workers = s.workers) (hclock : s.clock ≤ t.clock)
    (htickets : t.tickets = s.tickets) (hrequests : ∀ request ∈ t.requests, request.ticket < s.tickets)
    (hdated : ∀ ticket month, t.Dated ticket month →
      s.Dated ticket month ∨ ticket < s.tickets ∧ s.clock ≤ month ∧ month ≤ t.clock) : t.Timely := by
  refine ⟨fun worker hw => ?_, by rw [htickets]; exact hrequests, fun ticket month hm => ?_⟩
  · rw [hworkers] at hw
    exact (h.workers worker hw).later hclock htickets.ge fun ticket month _ hm =>
      (hdated ticket month hm).imp_right (·.2.1)
  · rw [htickets]
    rcases hdated ticket month hm with hm | ⟨hticket, -, hle⟩
    · exact ⟨(h.dated ticket month hm).1, (h.dated ticket month hm).2.trans hclock⟩
    · exact ⟨hticket, hle⟩

/-- One worker changes, and what is on its way does not grow. -/
theorem Timely.setWorker (h : s.Timely) {w : Nat} {worker : Worker} (hworkers : t.workers = s.workers.set w worker)
    (hclock : t.clock = s.clock) (htickets : s.tickets ≤ t.tickets)
    (hrequests : ∀ request ∈ t.requests, request.ticket < t.tickets)
    (hdated : ∀ ticket month, t.Dated ticket month → s.Dated ticket month) (hworker : t.WorkerFits worker) :
      t.Timely := by
  refine ⟨fun other ho => ?_, hrequests, fun ticket month hm => ?_⟩
  · rw [hworkers] at ho
    rcases List.mem_or_eq_of_mem_set ho with ho | rfl
    · exact (h.workers other ho).later hclock.ge htickets fun ticket month _ hm => .inl (hdated ticket month hm)
    · exact hworker
  · obtain ⟨hticket, hle⟩ := h.dated ticket month (hdated ticket month hm)
    exact ⟨by omega, by omega⟩

theorem month_enter {credit : ProjectCredit} {month : Nat} (h : credit.month ≤ month) :
    (credit.enter month).month = month := by
  unfold ProjectCredit.enter
  split
  · rfl
  · omega

theorem Timely.charge (h : s.Timely) {w : Nat} {credit : ProjectCredit} (hw : s.workers[w]? = some ⟨credit, none⟩)
    {byteCount : Nat} (hbound : byteCount < 2 ^ 64) (quick : Bool) :
    (s.charge w ⟨credit, none⟩ byteCount quick).Timely := by
  have hmonth : (credit.enter s.clock).month = s.clock :=
    month_enter (h.workers _ (List.mem_of_getElem? hw)).month
  unfold System.charge
  split
  · exact h.later rfl le_rfl rfl h.requests fun _ _ hm => .inl hm
  · dsimp only
    split
    · exact h.setWorker rfl rfl le_rfl h.requests (fun _ _ hm => hm) (.idle hmonth.le)
    next hlacks =>
      have hdated : ∀ ticket month, Dated { s with
          workers := s.workers.set w ⟨(credit.enter s.clock).grow quick,
            some ⟨s.tickets, byteCount, (subU64 byteCount (credit.enter s.clock).availableBytes).1, s.clock⟩⟩
          requests := s.requests ++ [⟨s.tickets, max ((credit.enter s.clock).grow quick).nextGrantBytes
            (subU64 byteCount (credit.enter s.clock).availableBytes).1,
            (subU64 byteCount (credit.enter s.clock).availableBytes).1, none⟩]
          tickets := s.tickets + 1
          inRange := s.inRange && (subU64 byteCount (credit.enter s.clock).availableBytes).2 } ticket month →
          s.Dated ticket month := by
        rintro ticket month (⟨request, hm, hticket, hdate⟩ | hm)
        · rcases List.mem_append.mp hm with hm | hm
          · exact .inl ⟨request, hm, hticket, hdate⟩
          · rw [List.mem_singleton.mp hm] at hdate
            cases hdate
        · exact .inr hm
      refine h.setWorker rfl rfl (Nat.le_succ _) (fun request hm => ?_) hdated ⟨hmonth.le, fun waiting hwait => ?_⟩
      · rcases List.mem_append.mp hm with hm | hm
        · exact Nat.lt_succ_of_lt (h.requests request hm)
        · rw [List.mem_singleton.mp hm]
          exact Nat.lt_succ_self _
      · cases hwait
        refine ⟨⟨Nat.lt_of_not_le hlacks, ?_, hbound, hmonth.symm⟩, Nat.lt_succ_self _, fun month hm => ?_⟩
        · dsimp only
          rw [subU64_of_le (by omega) hbound]
          rfl
        · exact absurd (h.dated _ month (hdated _ month hm)).1 (lt_irrefl _)

theorem Timely.commit (h : s.Timely) {i month : Nat} {request : Request} (hr : s.requests[i]? = some request)
    (hm : request.month = some month) (hc : s.Counted) : (s.commit i request month).Timely := by
  have hmem := List.mem_of_getElem? hr
  have hrequests : ∀ other ∈ s.requests.eraseIdx i, other.ticket < s.tickets :=
    fun other ho => h.requests other (List.mem_of_mem_eraseIdx ho)
  unfold System.commit
  split
  · refine h.later rfl le_rfl rfl hrequests fun ticket m hd => .inl ?_
    rcases hd with ⟨other, ho, hother⟩ | ⟨g, hg⟩
    · exact .inl ⟨other, List.mem_of_mem_eraseIdx ho, hother⟩
    · exact .inr ⟨g, (List.mem_cons.mp hg).resolve_left nofun⟩
  · have hgrants := grants_grantEgress s.quota (hc.usage month) month request.requestedBytes request.minimumBytes
    refine h.later rfl le_rfl rfl hrequests fun ticket m hd => .inl ?_
    rcases hd with ⟨other, ho, hother⟩ | ⟨g, hg⟩
    · exact .inl ⟨other, List.mem_of_mem_eraseIdx ho, hother⟩
    · rcases List.mem_cons.mp hg with heq | hg
      · obtain ⟨hticket, hresponse⟩ := Prod.mk.inj heq
        obtain ⟨rfl, -⟩ := hgrants.granted m g hresponse.symm
        exact .inl ⟨request, hmem, hticket.symm, hm⟩
      · exact .inr ⟨g, hg⟩

/-- The credit that a grant leaves belongs to a month that control read. -/
theorem month_receive (credit : ProjectCredit) (byteCount month grantedBytes : Nat) :
    (credit.receive byteCount month grantedBytes).1.month = max credit.month month := by
  simp only [ProjectCredit.receive, ProjectCredit.enter]
  split
  next hlt => exact (max_eq_right hlt.le).symm
  next hge => exact (max_eq_left (Nat.le_of_not_lt hge)).symm

theorem dated_eraseResponse {i ticket month : Nat} (workers : List Worker) (accepted : List Charge)
    (denied : List Denied)
    (inRange : Bool)
    (h : Dated { s with workers, accepted, denied, inRange, responses := s.responses.eraseIdx i } ticket month) :
    s.Dated ticket month := by
  rcases h with h | ⟨g, hg⟩
  · exact .inl h
  · exact .inr ⟨g, List.mem_of_mem_eraseIdx hg⟩

theorem Timely.deliver (h : s.Timely) {i w : Nat} {response : Response} {credit : ProjectCredit} {waiting : Waiting}
    (hr : s.responses[i]? = some (waiting.ticket, response)) (hw : s.workers[w]? = some ⟨credit, some waiting⟩) :
    (s.deliver i w ⟨credit, some waiting⟩ waiting response).Timely := by
  have hmonth := (h.workers _ (List.mem_of_getElem? hw)).month
  unfold System.deliver
  split
  next result hsettle =>
    refine h.setWorker rfl rfl le_rfl h.requests (fun _ _ hm => dated_eraseResponse _ _ _ _ hm) (.idle ?_)
    unfold settle at hsettle
    split at hsettle
    next month grantedBytes =>
      split at hsettle
      · rw [← Except.ok.inj hsettle, month_receive]
        exact max_le hmonth (h.dated _ month (.inr ⟨grantedBytes, List.mem_of_getElem? hr⟩)).2
      · cases hsettle
    all_goals cases hsettle
  next denied hsettle =>
    exact h.setWorker rfl rfl le_rfl h.requests (fun _ _ hm => dated_eraseResponse _ _ _ _ hm) (.idle hmonth)

/-- **Months.** No step makes control's months earlier than the workers'. -/
theorem Timely.moves (h : s.Timely) (hc : s.Counted) {action : Action} (hmoves : s.Moves action t) : t.Timely := by
  cases hmoves with
  | join =>
    refine ⟨fun worker hw => ?_, h.requests, h.dated⟩
    rcases List.mem_append.mp hw with hw | hw
    · exact (h.workers worker hw).later le_rfl le_rfl fun _ _ _ hm => .inl hm
    · rw [List.mem_singleton.mp hw]
      exact .idle (Nat.zero_le _)
  | tick => exact h.later rfl (Nat.le_succ _) rfl h.requests fun _ _ hm => .inl hm
  | charge byteCount quick hw => exact h.charge hw byteCount.toNat_lt quick
  | stamp hr =>
    have hlt := h.requests _ (List.mem_of_getElem? hr)
    refine h.later rfl le_rfl rfl (fun request hm => ?_) fun ticket month hd => ?_
    · rcases List.mem_or_eq_of_mem_set hm with hm | rfl
      · exact h.requests request hm
      · exact hlt
    · rcases hd with ⟨request, hm, hticket, hdate⟩ | hd
      · rcases List.mem_or_eq_of_mem_set hm with hm | rfl
        · exact .inl (.inl ⟨request, hm, hticket, hdate⟩)
        · cases hdate
          exact .inr ⟨hticket ▸ hlt, le_rfl, le_rfl⟩
      · exact .inl (.inr hd)
  | commit hr hm => exact h.commit hr hm hc
  | refuse hr hne =>
    refine h.later rfl le_rfl rfl (fun other ho => h.requests other (List.mem_of_mem_eraseIdx ho))
      fun ticket m hd => .inl ?_
    rcases hd with ⟨other, ho, hother⟩ | ⟨g, hg⟩
    · exact .inl ⟨other, List.mem_of_mem_eraseIdx ho, hother⟩
    · rcases List.mem_cons.mp hg with heq | hg
      · exact absurd (Prod.mk.inj heq).2.symm (hne m g)
      · exact .inr ⟨g, hg⟩
  | loseRequest i =>
    refine h.later rfl le_rfl rfl (fun other ho => h.requests other (List.mem_of_mem_eraseIdx ho))
      fun ticket m hd => .inl ?_
    rcases hd with ⟨other, ho, hother⟩ | hd
    · exact .inl ⟨other, List.mem_of_mem_eraseIdx ho, hother⟩
    · exact .inr hd
  | deliver hr hw => exact h.deliver hr hw
  | loseResponse i =>
    exact h.later rfl le_rfl rfl h.requests fun ticket m hd => .inl (dated_eraseResponse _ _ _ _ hd)
  | timeout hw =>
    exact h.setWorker rfl rfl le_rfl h.requests (fun _ _ hm => hm) (.idle (h.workers _ (List.mem_of_getElem? hw)).month)
  | restart hw => exact h.setWorker rfl rfl le_rfl h.requests (fun _ _ hm => hm) (.idle (Nat.zero_le _))

theorem timely_start (quota : Option MonthlyEgressLimit) : Timely { quota } :=
  ⟨nofun, nofun, fun _ _ hd => by rcases hd with ⟨_, hm, -⟩ | ⟨_, hm⟩ <;> cases hm⟩

/-! ## Bytes -/

def heldIn (month : Nat) (worker : Worker) : Nat :=
    if worker.credit.month = month then worker.credit.availableBytes else 0

def flightIn (month : Nat) (answer : Nat × Response) : Nat :=
  match answer.2 with
  | .granted m grantedBytes => if m = month then grantedBytes else 0
  | _ => 0

def takenIn (month : Nat) (source : Charge × Nat) : Nat := if source.2 = month then source.1.byteCount else 0

/-- What was taken, what workers hold and what is on its way is covered by what control recorded. -/
structure Balanced (s : System) : Prop where
  inRange : s.inRange = true
  sources : ∃ sources : List (Charge × Nat), sources.map Prod.fst = s.accepted ∧
    (∀ source ∈ sources, source.1.readMonth ≤ source.2) ∧
    ∀ month, (sources.map (takenIn month)).sum + (s.workers.map (heldIn month)).sum +
      (s.responses.map (flightIn month)).sum ≤ s.usage month

theorem Balanced.matched (h : s.Balanced) : s.Matched := by
  obtain ⟨sources, hmap, hread, hsum⟩ := h.sources
  refine ⟨sources, hmap, hread, fun month => ?_⟩
  have := hsum month
  change (sources.map (takenIn month)).sum ≤ s.usage month
  omega

/-- What a worker holds and what is on its way is in the range of the counter. -/
theorem Balanced.held_lt (h : s.Balanced) (hc : s.Counted) {worker : Worker} (hw : worker ∈ s.workers) :
    worker.credit.availableBytes < 2 ^ 64 := by
  obtain ⟨sources, -, -, hsum⟩ := h.sources
  have hle := le_sum_map (heldIn worker.credit.month) hw
  have := hsum worker.credit.month
  have := hc.usage worker.credit.month
  rw [heldIn, if_pos rfl] at hle
  omega

theorem Balanced.flight_lt (h : s.Balanced) (hc : s.Counted) {ticket month grantedBytes : Nat}
    (hm : (ticket, .granted month grantedBytes) ∈ s.responses) : grantedBytes < 2 ^ 64 := by
  obtain ⟨sources, -, -, hsum⟩ := h.sources
  have hle := le_sum_map (flightIn month) hm
  have := hsum month
  have := hc.usage month
  simp only [flightIn, if_true] at hle
  omega

/-- Nothing is accepted, and no month has more held or on its way than it had beyond what control recorded. -/
theorem Balanced.keep (h : s.Balanced) (hrange : t.inRange = true) (haccepted : t.accepted = s.accepted)
    (hsum : ∀ month, (t.workers.map (heldIn month)).sum + (t.responses.map (flightIn month)).sum + s.usage month ≤
      (s.workers.map (heldIn month)).sum + (s.responses.map (flightIn month)).sum + t.usage month) : t.Balanced := by
  obtain ⟨sources, hmap, hread, hs⟩ := h.sources
  refine ⟨hrange, sources, hmap.trans haccepted.symm, hread, fun month => ?_⟩
  have := hs month
  have := hsum month
  omega

/-- A charge is accepted, and its bytes come out of what was held or on its way for a month that is late enough. -/
theorem Balanced.accept (h : s.Balanced) (source : Nat) (hrange : t.inRange = true) {charge : Charge}
    (haccepted : t.accepted = charge :: s.accepted) (hread : charge.readMonth ≤ source) (husage : t.usage = s.usage)
    (hsum : ∀ month, takenIn month (charge, source) + (t.workers.map (heldIn month)).sum +
      (t.responses.map (flightIn month)).sum ≤ (s.workers.map (heldIn month)).sum +
      (s.responses.map (flightIn month)).sum) :
    t.Balanced := by
  obtain ⟨sources, hmap, hreads, hs⟩ := h.sources
  refine ⟨hrange, (charge, source) :: sources, by rw [haccepted, ← hmap]; rfl,
    List.forall_mem_cons.mpr ⟨hread, hreads⟩, fun month => ?_⟩
  have := hs month
  have := hsum month
  rw [List.map_cons, List.sum_cons, husage]
  omega

/-- Entering a month discards credit, it never adds any. -/
theorem heldIn_enter_le (credit : ProjectCredit) (clock month : Nat) (waiting waiting' : Option Waiting) :
    heldIn month ⟨credit.enter clock, waiting⟩ ≤ heldIn month ⟨credit, waiting'⟩ := by
  unfold heldIn ProjectCredit.enter
  dsimp only
  split
  · simp
  · exact le_rfl

theorem Balanced.charge (h : s.Balanced) (ht : s.Timely) (hc : s.Counted) {w : Nat} {credit : ProjectCredit}
    (hw : s.workers[w]? = some ⟨credit, none⟩) {byteCount : Nat} (hbound : byteCount < 2 ^ 64) (quick : Bool) :
    (s.charge w ⟨credit, none⟩ byteCount quick).Balanced := by
  have hmem := List.mem_of_getElem? hw
  have hmonth : (credit.enter s.clock).month = s.clock := month_enter (ht.workers _ hmem).month
  have havail : (credit.enter s.clock).availableBytes < 2 ^ 64 := by
    unfold ProjectCredit.enter
    split
    · exact Nat.two_pow_pos 64
    · exact h.held_lt hc hmem
  unfold System.charge
  split
  · refine h.accept s.clock h.inRange rfl le_rfl rfl fun month => ?_
    simp [takenIn]
  · dsimp only
    split
    next hle =>
      rw [subU64_of_le hle havail]
      refine h.accept s.clock (by rw [h.inRange]; rfl) rfl le_rfl rfl fun month => ?_
      have hset := sum_map_set (heldIn month) hw
        ⟨{ credit.enter s.clock with availableBytes := (credit.enter s.clock).availableBytes - byteCount }, none⟩
      have henter := heldIn_enter_le credit s.clock month none none
      dsimp only
      simp only [heldIn, takenIn, hmonth] at hset henter ⊢
      split at henter <;> simp_all <;> omega
    next hlt =>
      rw [subU64_of_le (by omega) hbound]
      refine h.keep (by rw [h.inRange]; rfl) rfl fun month => ?_
      have hset := sum_map_set (heldIn month) hw
        ⟨(credit.enter s.clock).grow quick,
          some ⟨s.tickets, byteCount, byteCount - (credit.enter s.clock).availableBytes, s.clock⟩⟩
      have henter := heldIn_enter_le credit s.clock month
        (some ⟨s.tickets, byteCount, byteCount - (credit.enter s.clock).availableBytes, s.clock⟩) none
      have hgrow : heldIn month ⟨(credit.enter s.clock).grow quick,
          some ⟨s.tickets, byteCount, byteCount - (credit.enter s.clock).availableBytes, s.clock⟩⟩ =
          heldIn month ⟨credit.enter s.clock,
            some ⟨s.tickets, byteCount, byteCount - (credit.enter s.clock).availableBytes, s.clock⟩⟩ := rfl
      dsimp only
      omega

theorem Balanced.commit (h : s.Balanced) (hc : s.Counted) (i : Nat) (request : Request) (month : Nat) :
    (s.commit i request month).Balanced := by
  unfold System.commit
  split
  · exact h.keep h.inRange rfl fun _ => by simp [flightIn]
  · have hg := grants_grantEgress s.quota (hc.usage month) month request.requestedBytes request.minimumBytes
    refine h.keep (by simp only [h.inRange, hg.inRange, Bool.and_self]) rfl fun m => ?_
    generalize grantEgress s.quota (s.usage month) month request.requestedBytes request.minimumBytes = result at hg ⊢
    have hrefused := hg.refused
    -- what is answered for a month is what its record grows by
    have hanswer : flightIn m (request.ticket, result.1) + s.usage m ≤ Function.update s.usage month result.2.1 m := by
      rw [Function.update_apply]
      cases hresponse : result.1 with
      | granted m' grantedBytes =>
        obtain ⟨rfl, htotal⟩ := hg.granted _ _ hresponse
        simp only [flightIn, eq_comm (a := m)]
        split
        next heq => subst heq; omega
        next => omega
      | _ =>
        simp only [flightIn, zero_add]
        split
        next heq => subst heq; exact hrefused
        next => exact le_rfl
    dsimp only
    rw [List.map_cons, List.sum_cons]
    omega

/-- The credit after a grant: with the bytes of the charge it is no more than it was and the grant. -/
theorem receive_of_calm (credit : ProjectCredit) {byteCount month grantedBytes : Nat} (hle : byteCount ≤ grantedBytes)
    (hmonth : credit.month ≤ month) (hgrant : grantedBytes < 2 ^ 64)
    (hsum : credit.month = month → credit.availableBytes + grantedBytes < 2 ^ 64) :
    (credit.receive byteCount month grantedBytes).2 = true ∧
      ∀ m, takenIn m (⟨credit.month, byteCount⟩, month) +
        heldIn m ⟨(credit.receive byteCount month grantedBytes).1, none⟩ ≤
          heldIn m ⟨credit, none⟩ + flightIn m (0, .granted month grantedBytes) := by
  simp only [ProjectCredit.receive, subU64_of_le hle hgrant]
  rcases hmonth.lt_or_eq with hlt | heq
  · simp only [ProjectCredit.enter, if_pos hlt, addU64_of_lt (show 0 + (grantedBytes - byteCount) < 2 ^ 64 by omega)]
    refine ⟨rfl, fun m => ?_⟩
    simp only [takenIn, heldIn, flightIn]
    split <;> omega
  · have := hsum heq
    have hnot : ¬ credit.month < month := by omega
    simp only [ProjectCredit.enter, if_neg hnot,
      addU64_of_lt (show credit.availableBytes + (grantedBytes - byteCount) < 2 ^ 64 by omega)]
    refine ⟨rfl, fun m => ?_⟩
    simp only [takenIn, heldIn, flightIn, heq]
    split <;> omega

/-- What a worker holds and one grant on its way are recorded together. -/
theorem Balanced.held_flight_lt (h : s.Balanced) (hc : s.Counted) {worker : Worker} (hw : worker ∈ s.workers)
    {ticket grantedBytes : Nat} (hm : (ticket, .granted worker.credit.month grantedBytes) ∈ s.responses) :
    worker.credit.availableBytes + grantedBytes < 2 ^ 64 := by
  obtain ⟨sources, -, -, hsum⟩ := h.sources
  have hheld := le_sum_map (heldIn worker.credit.month) hw
  have hflight := le_sum_map (flightIn worker.credit.month) hm
  have := hsum worker.credit.month
  have := hc.usage worker.credit.month
  simp only [heldIn, flightIn, if_true] at hheld hflight
  omega

theorem Balanced.deliver (h : s.Balanced) (ht : s.Timely) (hc : s.Counted) {i w : Nat} {response : Response}
    {credit : ProjectCredit} {waiting : Waiting} (hr : s.responses[i]? = some (waiting.ticket, response))
    (hw : s.workers[w]? = some ⟨credit, some waiting⟩) (hcalm : s.Calm (.deliver i w)) :
    (s.deliver i w ⟨credit, some waiting⟩ waiting response).Balanced := by
  have hmem := List.mem_of_getElem? hr
  have hworker := List.mem_of_getElem? hw
  have hcovers := hcalm _ hr _ hw _ rfl
  obtain ⟨hfits, -, hread⟩ := (ht.workers _ hworker).waiting _ rfl
  unfold System.deliver
  split
  next result hsettle =>
    unfold settle at hsettle
    split at hsettle
    next month grantedBytes =>
      split at hsettle
      next hminimum =>
        cases hsettle
        have hmonth : waiting.readMonth ≤ month := hread month (.inr ⟨grantedBytes, hmem⟩)
        obtain ⟨hrange, hsum⟩ := receive_of_calm credit (hcovers hminimum) (hfits.month ▸ hmonth)
          (h.flight_lt hc hmem) fun heq => h.held_flight_lt hc hworker (heq ▸ hmem)
        refine h.accept month (by rw [h.inRange]; exact hrange) rfl hmonth rfl fun m => ?_
        have hset := sum_map_set (heldIn m) hw ⟨(credit.receive waiting.byteCount month grantedBytes).1, none⟩
        have herase := sum_map_eraseIdx (flightIn m) hr
        have hone := hsum m
        simp only [takenIn, heldIn, flightIn] at hone hset herase ⊢
        omega
      next => cases hsettle
    all_goals cases hsettle
  next =>
    refine h.keep h.inRange rfl fun m => ?_
    have hset := sum_map_set (heldIn m) hw ⟨credit, none⟩
    have herase := sum_map_eraseIdx_le (flightIn m) s.responses i
    simp only [heldIn] at hset ⊢
    omega

/-- **Bytes.** In a calm step no arithmetic leaves its range and no byte is spent that was not granted. -/
theorem Balanced.moves (h : s.Balanced) (ht : s.Timely) (hc : s.Counted) {action : Action} (hcalm : s.Calm action)
    (hmoves : s.Moves action t) : t.Balanced := by
  cases hmoves with
  | join => exact h.keep h.inRange rfl fun m => by simp [heldIn]
  | charge byteCount quick hw => exact h.charge ht hc hw byteCount.toNat_lt quick
  | commit => exact h.commit hc ..
  | refuse hr hne =>
    refine h.keep h.inRange rfl fun m => ?_
    dsimp only
    rw [List.map_cons, List.sum_cons]
    unfold flightIn
    split
    next heq => exact absurd heq (hne _ _)
    next => omega
  | deliver hr hw => exact h.deliver ht hc hr hw hcalm
  | loseResponse i =>
    refine h.keep h.inRange rfl fun m => ?_
    have := sum_map_eraseIdx_le (flightIn m) s.responses i
    dsimp only
    omega
  | @timeout w credit waiting hw =>
    refine h.keep h.inRange rfl fun m => ?_
    have hset := sum_map_set (heldIn m) hw ⟨credit, none⟩
    simp only [heldIn] at hset ⊢
    omega
  | restart hw =>
    refine h.keep h.inRange rfl fun m => ?_
    have hset := sum_map_set (heldIn m) hw {}
    have hzero : heldIn m {} = 0 := by simp [heldIn]
    dsimp only
    omega
  | _ => exact h.keep h.inRange rfl fun m => le_rfl

theorem balanced_start (quota : Option MonthlyEgressLimit) : Balanced { quota } :=
  ⟨rfl, [], rfl, nofun, fun _ => le_rfl⟩

/-! ## Runs -/

/--
**The quota is kept.** In every run in which no charge gets a grant that covers what it lacked and is smaller than the
charge, in every state: arithmetic stays in range, each byte of an accepted charge was granted for a month that is not
earlier than the one the worker read, and no month is granted more than the limit.
-/
theorem sound_of_calm (quota : Option MonthlyEgressLimit) (h : Steps.Reach step Calm { quota } s) : s.Sound := by
  obtain ⟨hc, -, hb⟩ := h.invariant (P := fun s => s.Counted ∧ s.Timely ∧ s.Balanced)
    ⟨counted_start quota, timely_start quota, balanced_start quota⟩ fun s action t ⟨hc, ht, hb⟩ hcalm hstep => by
      have hmoves := moves_of_step hstep
      exact ⟨hc.moves hmoves, ht.moves hc hmoves, hb.moves ht hc hcalm hmoves⟩
  exact ⟨hb.inRange, hb.matched, hc.limited⟩

/-- Two charges of one worker across a month change, the second one with credit that is left of a grant. -/
theorem sound_across_month : ∃ s : System, s.accepted.length = 3 ∧ s.clock = 2 ∧ s.Sound := by
  have hrun : ∃ s, Steps.Reach step Calm { quota := some (.bytes 1000000) } s ∧
      decide (s.accepted.length = 3 ∧ s.clock = 2) = true :=
    Steps.exists_reach [.join, .charge 0 1000 false, .stamp 0, .commit 0, .deliver 0 0, .charge 0 500 false, .tick,
      .charge 0 300000 false, .stamp 0, .commit 0, .deliver 0 0] (by decide +kernel)
  obtain ⟨s, hreach, hs⟩ := hrun
  simp only [decide_eq_true_eq] at hs
  exact ⟨s, hs.1, hs.2, sound_of_calm (some (.bytes 1000000)) hreach⟩

/-- A charge that alone is larger than the limit has no match. -/
theorem not_matched_of_charge (hc : s.Counted) {limit : UInt64} (hlimit : s.quota = some (.bytes limit))
    {charge : Charge}
    (hm : charge ∈ s.accepted) (hlarge : limit.toNat < charge.byteCount) : ¬ s.Matched := by
  rintro ⟨sources, hmap, -, hsum⟩
  rw [← hmap] at hm
  obtain ⟨source, hsource, rfl⟩ := List.mem_map.mp hm
  have hle := le_sum_map (takenIn source.2) hsource
  have hrecorded : (sources.map (takenIn source.2)).sum ≤ s.usage source.2 := hsum source.2
  have := hc.limited limit hlimit source.2
  rw [takenIn, if_pos rfl] at hle
  omega

/--
A grant smaller than the charge. Ten bytes are left of a month, a charge of 262150 lacks 262140, and the month changes
before control answers with all of the 262144 bytes of the next one. `granted_bytes - byte_count` is below zero, and
what it wraps to is credit that covers any charge.
-/
theorem overspent_by_small_grant :
    ∃ s, Steps.Reach step (fun _ _ => True) { quota := some (.bytes 262144) } s ∧ s.inRange = false ∧ ¬ s.Matched := by
  have hrun : ∃ s, Steps.Reach step (fun _ _ => True) { quota := some (.bytes 262144) } s ∧
      decide (s.inRange = false ∧ (s.accepted.map Charge.byteCount).head? = some 9223372036854775808) = true :=
    Steps.exists_reach [.join, .charge 0 262134 false, .stamp 0, .commit 0, .deliver 0 0, .charge 0 262150 false, .tick,
      .stamp 0, .commit 0, .deliver 0 0, .charge 0 9223372036854775808 false] (by decide +kernel)
  obtain ⟨s, hreach, hs⟩ := hrun
  simp only [decide_eq_true_eq] at hs
  obtain ⟨charge, hcharge, hbytes⟩ := List.mem_map.mp (List.mem_of_head? hs.2)
  obtain ⟨hc, hquota⟩ := hreach.invariant (P := fun s => s.Counted ∧ s.quota = some (.bytes 262144))
    ⟨counted_start _, rfl⟩ fun s action t ⟨hc, hquota⟩ _ hstep => ⟨hc.moves (moves_of_step hstep),
      (quota_moves (moves_of_step hstep)).trans hquota⟩
  exact ⟨s, hreach, hs.1, not_matched_of_charge hc hquota hcharge (by rw [hbytes]; decide)⟩

end System

end Egress
