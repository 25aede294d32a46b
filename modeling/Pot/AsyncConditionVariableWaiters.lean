import Mathlib.Data.Fintype.Basic
import Pot.AsyncConditionVariable

/-! Whether a signalled variable can keep a coroutine waiting. await_suspend does not look at
the flag again, so everything depends on who is still to take the list, or to clear the flag,
when it links its awaiter. -/
namespace Pot.AsyncConditionVariable
open Transition

variable {Cid Tid : Type}

def Pc.calm : Pc Cid → Bool
  | .running | .suspended => true
  | _ => false

/-- No set(), stop() or co_await is under way. -/
def Quiet (s : State Cid Tid) : Prop := (∀ c, (s.pc c).calm = true) ∧ ∀ t, s.call t = .idle

/-- A set() that is still to take the list, or somebody that is still to clear the flag: a
resumed coroutine before its reset(), or a set() with awaiters left to resume. -/
def Pending (s : State Cid Tid) : Prop :=
  (∃ t, s.call t = .exchange) ∨ (∃ t c, s.call t = .loop (some c)) ∨ ∃ c, s.pc c = .awaitResume

def NoStop (_ : State Cid Tid) : Act Cid Tid → Prop
  | .stop _ => False
  | _ => True

/-- The compare-exchange that links an awaiter meets a flag that is false or about to be dealt
with; and nobody calls stop(). -/
def LinksInTime (s : State Cid Tid) : Act Cid Tid → Prop
  | .go c spurious => s.pc c = .compareExchange s.m_awaiter_head → spurious = false →
      s.m_set_state = false ∨ Pending s
  | .stop _ => False
  | _ => True

section Decidable
variable [DecidableEq Cid] [Fintype Cid] [Fintype Tid]

instance (s : State Cid Tid) : Decidable (Pending s) := inferInstanceAs (Decidable (_ ∨ _))

instance (s : State Cid Tid) : (a : Act Cid Tid) → Decidable (LinksInTime s a)
  | .go _ _ => inferInstanceAs (Decidable (_ → _ → _))
  | .stop _ => isFalse id
  | .coAwait _ | .set _ | .call _ | .reset => isTrue trivial

end Decidable

instance (s : State Cid Tid) : (a : Act Cid Tid) → Decidable (NoStop s a)
  | .stop _ => isFalse id
  | .coAwait _ | .go _ _ | .set _ | .call _ | .reset => isTrue trivial

/-- A waiter in the list of a signalled variable is accounted for. -/
def Inv (s : State Cid Tid) : Prop := s.m_set_state = true → s.m_awaiter_head ≠ none → Pending s

theorem quiet_pending {s : State Cid Tid} (quiet : Quiet s) : ¬ Pending s := by
  rintro (⟨t, ht⟩ | ⟨t, c, ht⟩ | ⟨c, hc⟩)
  · cases ht.symm.trans (quiet.2 t)
  · cases ht.symm.trans (quiet.2 t)
  · have calm := quiet.1 c
    rw [hc] at calm
    cases calm

theorem pending_setCall [DecidableEq Tid] {s : State Cid Tid} {t : Tid} {p : Call Cid} (h : Pending s)
    (taken : s.call t ≠ .exchange) (looped : ∀ c, s.call t ≠ .loop (some c)) :
    Pending (s.setCall t p) := by
  rcases h with ⟨u, hu⟩ | ⟨u, c, hu⟩ | resumed
  · have different : u ≠ t := fun same => taken (same ▸ hu)
    exact .inl ⟨u, (Function.update_of_ne different ..).trans hu⟩
  · have different : u ≠ t := fun same => looped c (same ▸ hu)
    exact .inr (.inl ⟨u, c, (Function.update_of_ne different ..).trans hu⟩)
  · exact .inr (.inr resumed)

variable [DecidableEq Cid]

theorem pending_goto {s : State Cid Tid} {c : Cid} {p : Pc Cid} (h : Pending s)
    (other : s.pc c ≠ .awaitResume) : Pending (s.goto c p) := by
  refine h.imp_right (.imp_right fun ⟨d, hd⟩ => ⟨d, ?_⟩)
  have different : d ≠ c := fun same => other (same ▸ hd)
  exact (Function.update_of_ne different ..).trans hd

theorem not_pending {s u : State Cid Tid} {c : Cid} {p : Pc Cid} (nobody : ¬ Pending s)
    (call : u.call = s.call) (pc : u.pc = Function.update s.pc c p) (other : p ≠ .awaitResume) :
    ¬ Pending u := by
  intro pending
  apply nobody
  rcases pending with ⟨t, ht⟩ | ⟨t, d, ht⟩ | ⟨d, hd⟩
  · exact .inl ⟨t, call ▸ ht⟩
  · exact .inr (.inl ⟨t, d, call ▸ ht⟩)
  · rw [pc, Function.update_apply] at hd
    split at hd
    · exact absurd hd other
    · exact .inr (.inr ⟨d, hd⟩)

variable [DecidableEq Tid]

inductive Steps (s : State Cid Tid) : Act Cid Tid → State Cid Tid → Prop where
  | ready {c} (at_pc : s.pc c = .running) (flag : s.m_set_state = true) :
    Steps s (.coAwait c) (s.goto c .awaitResume)
  | unready {c} (at_pc : s.pc c = .running) (flag : s.m_set_state = false) :
    Steps s (.coAwait c) (s.goto c .loadHead)
  | load {c spurious} (at_pc : s.pc c = .loadHead) :
    Steps s (.go c spurious) (s.goto c (.compareExchange s.m_awaiter_head))
  | link {c} (at_pc : s.pc c = .compareExchange s.m_awaiter_head) :
    Steps s (.go c false) ({ s with next := Function.update s.next c s.m_awaiter_head,
                                    m_awaiter_head := some c }.goto c .suspended)
  | again {c spurious old_head} (at_pc : s.pc c = .compareExchange old_head) :
    Steps s (.go c spurious) ({ s with next := Function.update s.next c old_head }.goto c
      (.compareExchange s.m_awaiter_head))
  | resume {c spurious} (at_pc : s.pc c = .awaitResume) :
    Steps s (.go c spurious) ((reset s).goto c .running)
  | set {t} (at_pc : s.call t = .idle) :
    Steps s (.set t) ({ s with m_set_state := true }.setCall t .exchange)
  | stop {t} (at_pc : s.call t = .idle) : Steps s (.stop t) ((reset s).setCall t .drop)
  | exchange {t} (at_pc : s.call t = .exchange) :
    Steps s (.call t) ({ s with m_awaiter_head := none }.setCall t (.loop s.m_awaiter_head))
  | finish {t} (at_pc : s.call t = .loop none) : Steps s (.call t) (s.setCall t .idle)
  | wake {t c} (at_pc : s.call t = .loop (some c)) (waiting : s.pc c = .suspended) :
    Steps s (.call t) ((s.setCall t (.loop (s.next c))).goto c .awaitResume)
  | drop {t} (at_pc : s.call t = .drop) :
    Steps s (.call t) ({ s with m_awaiter_head := none }.setCall t .idle)
  | reset : Steps s .reset (reset s)

theorem step_cases {s t : State Cid Tid} {a : Act Cid Tid} (taken : step s a = some t) :
    Steps s a t := by
  cases a with
  | coAwait c =>
    simp only [step] at taken
    split at taken <;> cases taken
    simp only [awaitReady]
    split
    · exact .ready ‹_› ‹_›
    · exact .unready ‹_› (Bool.eq_false_iff.mpr ‹_›)
  | go c spurious =>
    simp only [step] at taken
    cases hpc : s.pc c with
    | compareExchange old_head =>
      rw [hpc] at taken
      simp only [access] at taken
      split at taken
      · rename_i won
        obtain ⟨rfl, rfl⟩ := won
        cases taken
        exact .link hpc
      · cases taken
        exact .again hpc
    | loadHead => rw [hpc] at taken; cases taken; exact .load hpc
    | awaitResume => rw [hpc] at taken; cases taken; exact .resume hpc
    | running | suspended => rw [hpc] at taken; cases taken
  | set u =>
    simp only [step] at taken
    split at taken <;> cases taken
    exact .set ‹_›
  | stop u =>
    simp only [step] at taken
    split at taken <;> cases taken
    exact .stop ‹_›
  | call u =>
    simp only [step] at taken
    cases hcall : s.call u with
    | idle => rw [hcall] at taken; cases taken
    | exchange => rw [hcall] at taken; cases taken; exact .exchange hcall
    | drop => rw [hcall] at taken; cases taken; exact .drop hcall
    | loop head =>
      rw [hcall] at taken
      cases head with
      | none => cases taken; exact .finish hcall
      | some c =>
        simp only [callStep] at taken
        split at taken <;> cases taken
        exact .wake hcall ‹_›
  | reset => cases taken; exact .reset

theorem step_inv {s t : State Cid Tid} {a : Act Cid Tid} (h : Inv s) (ok : LinksInTime s a)
    (taken : step s a = some t) : Inv t := by
  intro flag list
  cases step_cases taken with
  | ready at_pc | unready at_pc | load at_pc | again at_pc =>
    exact pending_goto (h flag list) (by simp [at_pc])
  | @link c at_pc =>
    have pending := (ok at_pc rfl).resolve_left (by
      intro clear
      cases clear.symm.trans flag)
    exact pending_goto (s := { s with next := _, m_awaiter_head := some c }) pending
      (by simp [at_pc])
  | resume | reset => cases flag
  | @set u => exact .inl ⟨u, Function.update_self ..⟩
  | stop => exact absurd ok id
  | exchange | drop => exact absurd rfl list
  | finish at_pc => exact pending_setCall (h flag list) (by simp [at_pc]) (by simp [at_pc])
  | @wake u c => exact .inr (.inr ⟨c, Function.update_self ..⟩)

theorem reached_inv {s : State Cid Tid} (h : ReachedUnder (system Cid Tid) LinksInTime s) :
    Inv s :=
  h.invariant (I := Inv) (fun s start => by
      obtain ⟨set, rfl⟩ : ∃ set, s = initial set := start
      exact fun _ list => absurd rfl list)
    (fun _ _ _ hi ok taken => step_inv hi ok taken)

/-- In every run only finitely many coroutines and threads are under way. -/
theorem reached_busy {ok : State Cid Tid → Act Cid Tid → Prop} {s : State Cid Tid}
    (h : ReachedUnder (system Cid Tid) ok s) :
    (∃ cs : List Cid, ∀ c, c ∉ cs → s.pc c = .running) ∧
      ∃ ts : List Tid, ∀ t, t ∉ ts → s.call t = .idle := by
  constructor
  · refine h.support State.pc _ (fun s start => ?_) (fun s a t taken => ?_)
    · obtain ⟨set, rfl⟩ : ∃ set, s = initial set := start
      exact fun _ => rfl
    · cases step_cases taken with
      | @ready c | @unready c | @load c | @link c | @again c | @resume c | @wake _ c =>
        exact ⟨[c], update_outside _ c _⟩
      | _ => exact ⟨[], fun _ _ => rfl⟩
  · refine h.support State.call _ (fun s start => ?_) (fun s a t taken => ?_)
    · obtain ⟨set, rfl⟩ : ∃ set, s = initial set := start
      exact fun _ => rfl
    · cases step_cases taken with
      | @set u | @stop u | @exchange u | @finish u | @wake u | @drop u =>
        exact ⟨[u], update_outside _ u _⟩
      | _ => exact ⟨[], fun _ _ => rfl⟩

theorem reached_drop {s : State Cid Tid} (h : ReachedUnder (system Cid Tid) NoStop s) (t : Tid) :
    s.call t ≠ .drop := by
  have never : ∀ u, s.call u ≠ .drop := by
    refine h.invariant (I := fun s => ∀ u, s.call u ≠ .drop) (fun s start => ?_)
      (fun s a t hi ok taken => ?_)
    · obtain ⟨set, rfl⟩ : ∃ set, s = initial set := start
      intro u eq
      cases eq
    · have moved : ∀ {u : Tid} {p : Call Cid}, p ≠ .drop →
          ∀ v, Function.update s.call u p v ≠ .drop := by
        intro u p other v
        rw [Function.update_apply]
        split
        · exact other
        · exact hi v
      cases step_cases taken with
      | stop => exact absurd ok id
      | set | exchange | finish | wake | drop => exact moved (by simp)
      | _ => exact hi
  exact never t

/-- A waiter is in the list of a signalled variable and nobody is to deal with it. -/
structure Forgotten (s : State Cid Tid) : Prop where
  reached : ReachedUnder (system Cid Tid) NoStop s
  flag : s.m_set_state = true
  list : s.m_awaiter_head ≠ none
  nobody : ¬ Pending s

theorem reached_go {s t : State Cid Tid} {c : Cid} {spurious : Bool}
    (reached : ReachedUnder (system Cid Tid) NoStop s)
    (taken : step s (.go c spurious) = some t) : ReachedUnder (system Cid Tid) NoStop t :=
  .next reached (show NoStop s (.go c spurious) from trivial) taken

/-- The runs without stop(). -/
def stopless (Cid Tid : Type) [DecidableEq Cid] [DecidableEq Tid] :
    System (State Cid Tid) (Act Cid Tid) :=
  (system Cid Tid).guarded NoStop

theorem stopless_go {s t : State Cid Tid} {c : Cid} {spurious : Bool}
    (taken : step s (.go c spurious) = some t) :
    (stopless Cid Tid).step s (.go c spurious) = some t :=
  guarded_step.mpr ⟨trivial, taken⟩

theorem link_forgotten {s : State Cid Tid} {c : Cid}
    (reached : ReachedUnder (system Cid Tid) NoStop s) (flag : s.m_set_state = true)
    (nobody : ¬ Pending s) (at_pc : s.pc c = .compareExchange s.m_awaiter_head) :
    ∃ u, step s (.go c false) = some u ∧ Forgotten u ∧
      u.pc = Function.update s.pc c .suspended := by
  have taken : step s (.go c false) = some ({ s with
      next := Function.update s.next c s.m_awaiter_head, m_awaiter_head := some c }.goto c
        .suspended) := by
    simp only [step, at_pc, access, and_self, if_true]
  refine ⟨_, taken, ⟨reached_go reached taken, flag, Option.some_ne_none c, ?_⟩, rfl⟩
  exact not_pending nobody rfl rfl (by simp)

theorem Forgotten.settle {s : State Cid Tid} (h : Forgotten s) (c : Cid) :
    Leads (stopless Cid Tid) s fun u =>
      Forgotten u ∧ (u.pc c).calm = true ∧ ∀ d, d ≠ c → u.pc d = s.pc d := by
  have linked : ∀ {v : State Cid Tid}, Forgotten v → v.pc c = .compareExchange v.m_awaiter_head →
      (∀ d, d ≠ c → v.pc d = s.pc d) → Leads (stopless Cid Tid) v fun u =>
        Forgotten u ∧ (u.pc c).calm = true ∧ ∀ d, d ≠ c → u.pc d = s.pc d := by
    intro v hv at_pc others
    obtain ⟨u, taken, hu, pc⟩ := link_forgotten hv.reached hv.flag hv.nobody at_pc
    refine .next (stopless_go taken) (.now ⟨hu, by rw [pc, Function.update_self]; rfl, ?_⟩)
    intro d other
    rw [pc, Function.update_of_ne other]
    exact others d other
  cases hpc : s.pc c with
  | running | suspended => exact .now ⟨h, by rw [hpc]; rfl, fun _ _ => rfl⟩
  | awaitResume => exact absurd (.inr (.inr ⟨c, hpc⟩)) h.nobody
  | loadHead =>
    have taken : step s (.go c false) = some (s.goto c (.compareExchange s.m_awaiter_head)) := by
      simp only [step, hpc, access]
    exact .next (stopless_go taken) (linked ⟨reached_go h.reached taken, h.flag, h.list,
        not_pending h.nobody rfl rfl (by simp)⟩
      (Function.update_self ..) (fun d other => Function.update_of_ne other _ s.pc))
  | compareExchange old_head =>
    by_cases same : s.m_awaiter_head = old_head
    · subst same
      exact linked h hpc fun _ _ => rfl
    · have taken : step s (.go c false) =
          some ({ s with next := Function.update s.next c old_head }.goto c
            (.compareExchange s.m_awaiter_head)) := by
        simp only [step, hpc, access, same, false_and, if_false]
      exact .next (stopless_go taken) (linked ⟨reached_go h.reached taken, h.flag, h.list,
          not_pending h.nobody rfl rfl (by simp)⟩
        (Function.update_self ..) (fun d other => Function.update_of_ne other _ s.pc))

theorem Forgotten.settle_all {s : State Cid Tid} (h : Forgotten s) :
    Leads (stopless Cid Tid) s fun u => Forgotten u ∧ ∀ c, (u.pc c).calm = true := by
  obtain ⟨away, others⟩ := (reached_busy h.reached).1
  refine leads_home (fun s c h => ?_) away h fun c outside => by rw [others c outside]; rfl
  refine (h.settle c).mono fun u ⟨hu, calm, kept⟩ => ⟨hu, calm, fun d other quiet => ?_⟩
  rw [kept d other]
  exact quiet

theorem Forgotten.finish {s : State Cid Tid} (h : Forgotten s) (t : Tid) :
    Leads (stopless Cid Tid) s fun u =>
      Forgotten u ∧ u.call t = .idle ∧ (∀ v, v ≠ t → u.call v = s.call v) ∧ u.pc = s.pc := by
  cases hcall : s.call t with
  | idle => exact .now ⟨h, hcall, fun _ _ => rfl, rfl⟩
  | exchange => exact absurd (.inl ⟨t, hcall⟩) h.nobody
  | drop => exact absurd hcall (reached_drop h.reached t)
  | loop head =>
    cases head with
    | some c => exact absurd (.inr (.inl ⟨t, c, hcall⟩)) h.nobody
    | none =>
      have taken : step s (.call t) = some (s.setCall t .idle) := by
        simp only [step, hcall, callStep]
      have reached : ReachedUnder (system Cid Tid) NoStop (s.setCall t .idle) :=
        .next h.reached (show NoStop s (.call t) from trivial) taken
      have allowed : (stopless Cid Tid).step s (.call t) = some (s.setCall t .idle) :=
        guarded_step.mpr ⟨trivial, taken⟩
      refine .next allowed (.now ⟨⟨reached, h.flag, h.list,
        fun pending => h.nobody ?_⟩, Function.update_self ..,
        fun v other => Function.update_of_ne other .., rfl⟩)
      have back : s = (s.setCall t .idle).setCall t (.loop none) := by
        simp only [State.setCall, Function.update_idem, ← hcall, Function.update_eq_self]
      rw [back]
      exact pending_setCall pending (by simp [State.setCall]) (by simp [State.setCall])

theorem Forgotten.finish_all {s : State Cid Tid} (h : Forgotten s)
    (calm : ∀ c, (s.pc c).calm = true) :
    Leads (stopless Cid Tid) s fun u => Forgotten u ∧ Quiet u := by
  obtain ⟨away, others⟩ := (reached_busy h.reached).2
  have one : ∀ (s : State Cid Tid) t, (Forgotten s ∧ ∀ c, (s.pc c).calm = true) →
      Leads (stopless Cid Tid) s fun u => (Forgotten u ∧ ∀ c, (u.pc c).calm = true) ∧
        u.call t = .idle ∧ ∀ v, v ≠ t → s.call v = .idle → u.call v = .idle := by
    rintro s t ⟨h, calm⟩
    refine (h.finish t).mono fun u ⟨hu, idle, kept, pc⟩ => ⟨⟨hu, pc ▸ calm⟩, idle, ?_⟩
    exact fun v other quiet => (kept v other).trans quiet
  exact (leads_home one away ⟨h, calm⟩ others).mono fun u ⟨⟨hu, still⟩, idle⟩ => ⟨hu, still, idle⟩

/-- Every compare-exchange in time: once all calls are done, nobody waits on a signalled
variable. And after one that is not in time the run can end in just that. -/
theorem no_waiter_lost (Cid Tid : Type) [DecidableEq Cid] [DecidableEq Tid] :
    (∀ s : State Cid Tid, ReachedUnder (system Cid Tid) LinksInTime s → Quiet s →
      s.m_set_state = true → s.m_awaiter_head = none) ∧
    ∀ (s t : State Cid Tid) (a : Act Cid Tid), ReachedUnder (system Cid Tid) NoStop s →
      NoStop s a → ¬ LinksInTime s a → step s a = some t →
      ∃ as u, replay ((system Cid Tid).guarded NoStop) t as = some u ∧
        ReachedUnder (system Cid Tid) NoStop u ∧ Quiet u ∧ u.m_set_state = true ∧
        u.m_awaiter_head ≠ none := by
  constructor
  · intro s reached quiet flag
    by_contra list
    exact quiet_pending quiet (reached_inv reached flag list)
  · intro s t a reached noStop late taken
    cases a with
    | go c spurious =>
      simp only [LinksInTime, Classical.not_imp, not_or] at late
      obtain ⟨at_pc, rfl, set, nobody⟩ := late
      obtain ⟨v, linked, forgotten, _⟩ :=
        link_forgotten reached (Bool.not_eq_false _ ▸ set) nobody at_pc
      cases linked.symm.trans taken
      exact (forgotten.settle_all.trans fun w ⟨hw, calm⟩ => hw.finish_all calm).mono
        fun u ⟨hu, quiet⟩ => ⟨hu.reached, quiet, hu.flag, hu.list⟩
    | stop => exact absurd noStop id
    | coAwait | set | call | reset => exact absurd trivial late

def inTime : List (Act Unit Unit) :=
  [.coAwait (), .go () false, .go () false, .set (), .call (), .call (), .go () false, .call ()]

def woken : State Unit Unit := (replay (system Unit Unit) (initial false) inTime).get rfl

theorem no_waiter_lost_woken : woken.m_set_state = false ∧ woken.m_awaiter_head = none ∧
    (woken.m_set_state = true → woken.m_awaiter_head = none) := by
  have reached : ReachedUnder (system Unit Unit) LinksInTime woken :=
    ReachedUnder.replay (.start (Exists.intro false rfl)) inTime (by decide) (Option.some_get _).symm
  exact ⟨rfl, rfl, (no_waiter_lost Unit Unit).1 woken reached ⟨fun _ => rfl, fun _ => rfl⟩⟩

/-- set() runs between await_ready's load and the compare-exchange of await_suspend. -/
def between : List (Act Unit Unit) :=
  [.coAwait (), .set (), .call (), .call (), .go () false, .go () false]

theorem late_link_lost :
    ¬ ∀ s : State Unit Unit, ReachedUnder (system Unit Unit) NoStop s → Quiet s →
      s.m_set_state = true → s.m_awaiter_head = none := by
  intro never
  have reached : ReachedUnder (system Unit Unit) NoStop
      ((replay (system Unit Unit) (initial false) between).get rfl) :=
    ReachedUnder.replay (.start (Exists.intro false rfl)) between (by decide) (Option.some_get _).symm
  cases never _ reached ⟨fun _ => rfl, fun _ => rfl⟩ rfl

end Pot.AsyncConditionVariable
