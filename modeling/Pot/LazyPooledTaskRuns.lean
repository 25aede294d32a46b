import Mathlib.Algebra.Order.Ring.Nat
import Pot.LazyPooledTask

/-! In every order of steps do_run is resumed once from each suspension: by the consumer, which
has registered before, by a worker once the handle is queued, and by what func waits for. -/
namespace Pot.LazyPooledTask
open Transition
open Pot.Task (Body Data Outcome readData)
open PooledTask (Way Config Coro Runner)

variable {V E : Type} {cfg : Config V E} {s t : State V E} {a : Act}

def Consumer.registered : Consumer V E → Bool
  | .look | .store => false
  | _ => true

/-- The consumer has not resumed the coroutine. -/
def State.Starting (cfg : Config V E) (s : State V E) : Prop :=
  s.consumer = .look ∨ s.consumer = .resume ∨
    cfg.way = .coAwait ∧ (s.consumer = .store ∨ s.consumer = .check)

/-- It has, and is out of resume(). -/
def State.Past (cfg : Config V E) (s : State V E) : Prop :=
  s.consumer = Way.after cfg.way ∨ cfg.way = .get ∧ s.m_ready = true ∧
    s.consumer = .finished (readData cfg.body.isVoid cfg.body.result.data)

def State.Placed (cfg : Config V E) (s : State V E) : Prop :=
  match s.coro with
  | .suspended 0 => s.job = .none ∧ s.pending = 0 ∧ s.Starting cfg
  | .running 0 => s.job = .none ∧ s.pending = 0 ∧ s.consumer = .resuming
  | .suspended 1 => s.pending = 0 ∧
    (s.consumer = .push ∧ s.job = .none ∨ s.Past cfg ∧ (s.job = .queued ∨ s.job = .popped))
  | .running 1 => s.pending = 0 ∧ s.Past cfg ∧ s.job = .resuming ∧ s.runner = .worker
  | .suspended (k + 2) =>
    k < cfg.body.suspensions ∧ s.pending = 1 ∧ s.Past cfg ∧ s.job = .returned
  | .running (k + 2) =>
    k < cfg.body.suspensions ∧ s.pending = 0 ∧ s.Past cfg ∧ s.job = .returned ∧ s.runner = .other
  | .emplaced | .exchanged | .finalSuspend => s.pending = 0 ∧ s.Past cfg ∧
    (s.job = .resuming ∧ s.runner = .worker ∨ s.job = .returned ∧ s.runner = .other)
  | .finished => s.pending = 0 ∧ s.Past cfg ∧ s.job = .returned
  | .threw | .undefined => False

def Coro.resumptions (suspensions : Nat) : Coro → Nat
  | .suspended k => k
  | .running k => k + 1
  | _ => suspensions + 2

def Coro.complete : Coro → Bool
  | .exchanged | .finalSuspend | .finished => true
  | _ => false

def Coro.stored : Coro → Bool
  | .emplaced | .exchanged | .finalSuspend | .finished => true
  | _ => false

structure Inv (cfg : Config V E) (s : State V E) : Prop where
  placed : s.Placed cfg
  resumed : s.resumed = List.range (Coro.resumptions cfg.body.suspensions s.coro)
  ready : s.m_ready = Coro.complete s.coro
  data : Coro.stored s.coro = true → s.m_data = cfg.body.result.data
  continuation : s.m_continuation = (cfg.way = .coAwait && s.consumer.registered)
  entries : s.entries =
    if s.coro = .finished ∧ cfg.way = .coAwait then [(true, cfg.body.result.data)] else []
  alive : s.alive = false → s.released cfg = true

theorem initial_inv (cfg : Config V E) : Inv cfg initial where
  placed := ⟨rfl, rfl, .inl rfl⟩
  resumed := rfl
  ready := rfl
  data := nofun
  continuation := (Bool.and_false _).symm
  entries := rfl
  alive := nofun

theorem after_registered (way : Way) : (Way.after way : Consumer V E).registered = true := by
  cases way <;> rfl

theorem State.Past.registered (h : s.Past cfg) : s.consumer.registered = true := by
  rcases h with after | ⟨-, -, finished⟩
  · rw [after]
    exact after_registered _
  · rw [finished]
    rfl

/-- What a step is where the invariant holds. -/
inductive Moves (cfg : Config V E) (s : State V E) : Act → State V E → Prop where
  | early (at_coro : s.coro = .suspended 0) (at_look : s.consumer = .look) (way : cfg.way = .get) :
    Moves cfg s .consumer { s with consumer := .resume }
  | await (at_coro : s.coro = .suspended 0) (at_look : s.consumer = .look)
    (way : cfg.way = .coAwait) : Moves cfg s .consumer { s with consumer := .store }
  | store (at_coro : s.coro = .suspended 0) (at_store : s.consumer = .store) :
    Moves cfg s .consumer { s with m_continuation := true, consumer := .check }
  | check (at_coro : s.coro = .suspended 0) (at_check : s.consumer = .check) :
    Moves cfg s .consumer { s with consumer := .resume }
  | resume (at_coro : s.coro = .suspended 0) (at_resume : s.consumer = .resume) :
    Moves cfg s .consumer { s with
      coro := .running 0, runner := .consumer, consumer := .resuming, resumed := s.resumed ++ [0] }
  | switch (at_coro : s.coro = .running 0) :
    Moves cfg s .coroutine { s with coro := .suspended 1, consumer := .push }
  | push (at_coro : s.coro = .suspended 1) (at_push : s.consumer = .push) :
    Moves cfg s .consumer { s with job := .queued, consumer := Way.after cfg.way }
  | pop (at_coro : s.coro = .suspended 1) (at_job : s.job = .queued) :
    Moves cfg s .worker { s with job := .popped }
  | work (at_coro : s.coro = .suspended 1) (at_job : s.job = .popped) :
    Moves cfg s .worker { s with
      coro := .running 1, runner := .worker, job := .resuming, resumed := s.resumed ++ [1] }
  | suspend {k : Nat} (at_coro : s.coro = .running (k + 1)) (more : k < cfg.body.suspensions) :
    Moves cfg s .coroutine { s with coro := .suspended (k + 2), pending := 1, job := .returned }
  | awaited {k : Nat} (at_coro : s.coro = .suspended (k + 2)) :
    Moves cfg s .awaited { s with
      coro := .running (k + 2), runner := .other, pending := 0, resumed := s.resumed ++ [k + 2] }
  | emplace (at_coro : s.coro = .running (cfg.body.suspensions + 1)) : Moves cfg s .coroutine
      { s with m_data := cfg.body.result.data, coro := .emplaced }
  | exchange (at_coro : s.coro = .emplaced) :
    Moves cfg s .coroutine { s with m_ready := true, coro := .exchanged }
  | final_suspend (at_coro : s.coro = .exchanged) :
    Moves cfg s .coroutine { s with coro := .finalSuspend }
  | finish (at_coro : s.coro = .finalSuspend) : Moves cfg s .coroutine { s with
      coro := .finished, job := .returned,
      entries := if cfg.way = .coAwait then [(true, cfg.body.result.data)] else [] }
  | get (ready : s.m_ready = true) (way : cfg.way = .get) (at_wait : s.consumer = .wait) :
    Moves cfg s .consumer
      { s with consumer := .finished (readData cfg.body.isVoid cfg.body.result.data) }
  | destroy (there : s.alive = true) (released : s.released cfg = true) :
    Moves cfg s .destroy { s with alive := false }

theorem Inv.begun (h : Inv cfg s) : s.coro = .suspended 0 ∧ s.Starting cfg ∨
    s.coro = .running 0 ∧ s.consumer = .resuming ∨ s.coro = .suspended 1 ∧ s.consumer = .push ∨
      s.Past cfg := by
  have placed := h.placed
  unfold State.Placed at placed
  split at placed
  · exact .inl ⟨‹_›, placed.2.2⟩
  · exact .inr (.inl ⟨‹_›, placed.2.2⟩)
  · rcases placed.2 with pushing | pushed
    · exact .inr (.inr (.inl ⟨‹_›, pushing.1⟩))
    · exact .inr (.inr (.inr pushed.1))
  · exact .inr (.inr (.inr placed.2.1))
  · exact .inr (.inr (.inr placed.2.2.1))
  · exact .inr (.inr (.inr placed.2.2.1))
  all_goals first | exact .inr (.inr (.inr placed.2.1)) | exact placed.elim

theorem State.Past.cases (h : s.Past cfg) : cfg.way = .get ∧ s.consumer = .wait ∨
    cfg.way = .coAwait ∧ s.consumer = .left ∨ cfg.way = .get ∧ s.m_ready = true ∧
      s.consumer = .finished (readData cfg.body.isVoid cfg.body.result.data) := by
  rcases h with after | finished
  · cases way : cfg.way with
    | get => exact .inl ⟨rfl, by rw [after, way]; rfl⟩
    | coAwait => exact .inr (.inl ⟨rfl, by rw [after, way]; rfl⟩)
  · exact .inr (.inr finished)

theorem Inv.starting (h : Inv cfg s) (before : s.consumer ≠ .resuming ∧ s.consumer ≠ .push ∧
    s.consumer ≠ .wait ∧ s.consumer ≠ .left ∧ ∀ o, s.consumer ≠ .finished o) :
    s.coro = .suspended 0 ∧ s.Starting cfg := by
  rcases h.begun with start | ⟨-, resuming⟩ | ⟨-, push⟩ | past
  · exact start
  · exact absurd resuming before.1
  · exact absurd push before.2.1
  · rcases past.cases with ⟨-, wait⟩ | ⟨-, left⟩ | ⟨-, -, finished⟩
    · exact absurd wait before.2.2.1
    · exact absurd left before.2.2.2.1
    · exact absurd finished (before.2.2.2.2 _)

theorem Inv.stored (h : Inv cfg s) (ready : s.m_ready = true) :
    s.m_data = cfg.body.result.data := by
  apply h.data
  rw [h.ready] at ready
  cases coro : s.coro <;> rw [coro] at ready <;> first | rfl | cases ready

theorem Inv.consumer_moves (h : Inv cfg s) (taken : consume cfg s = some t) :
    Moves cfg s .consumer t := by
  have unready : s.coro = .suspended 0 → s.m_ready = false := fun at_coro => by
    rw [h.ready, at_coro]
    rfl
  cases at_pc : s.consumer with
  | look =>
    obtain ⟨at_coro, -⟩ := h.starting (by rw [at_pc]; exact ⟨nofun, nofun, nofun, nofun, nofun⟩)
    have early : ¬ s.m_ready = true := Bool.eq_false_iff.mp (unready at_coro)
    simp only [consume, at_pc, if_neg early] at taken
    split at taken <;> cases taken
    · exact .early at_coro at_pc ‹_›
    · exact .await at_coro at_pc ‹_›
  | store =>
    obtain ⟨at_coro, -⟩ := h.starting (by rw [at_pc]; exact ⟨nofun, nofun, nofun, nofun, nofun⟩)
    simp only [consume, at_pc] at taken
    cases taken
    exact .store at_coro at_pc
  | check =>
    obtain ⟨at_coro, -⟩ := h.starting (by rw [at_pc]; exact ⟨nofun, nofun, nofun, nofun, nofun⟩)
    have waits : ¬ s.coro.done = true := by
      rw [at_coro]
      exact Bool.false_ne_true
    simp only [consume, at_pc, if_neg waits] at taken
    cases taken
    exact .check at_coro at_pc
  | resume =>
    obtain ⟨at_coro, -⟩ := h.starting (by rw [at_pc]; exact ⟨nofun, nofun, nofun, nofun, nofun⟩)
    simp only [consume, at_pc, State.resume, at_coro] at taken
    cases taken
    exact .resume at_coro at_pc
  | push =>
    simp only [consume, at_pc] at taken
    cases taken
    rcases h.begun with ⟨-, start⟩ | ⟨-, resuming⟩ | ⟨at_coro, -⟩ | past
    · rcases start with no | no | ⟨-, no | no⟩ <;> rw [at_pc] at no <;> cases no
    · rw [at_pc] at resuming
      cases resuming
    · exact .push at_coro at_pc
    · rcases past.cases with ⟨-, no⟩ | ⟨-, no⟩ | ⟨-, -, no⟩ <;> rw [at_pc] at no <;> cases no
  | wait =>
    simp only [consume, at_pc] at taken
    split at taken <;> cases taken
    rename_i ready
    have result : readData cfg.body.isVoid s.m_data =
        readData cfg.body.isVoid cfg.body.result.data := by rw [h.stored ready]
    rw [result]
    refine .get ready ?_ at_pc
    rcases h.begun with ⟨-, start⟩ | ⟨-, no⟩ | ⟨-, no⟩ | past
    · rcases start with no | no | ⟨-, no | no⟩ <;> rw [at_pc] at no <;> cases no
    · rw [at_pc] at no
      cases no
    · rw [at_pc] at no
      cases no
    · rcases past.cases with get | ⟨-, no⟩ | get
      · exact get.1
      · rw [at_pc] at no
        cases no
      · exact get.1
  | resuming | finished | left =>
    simp only [consume, at_pc] at taken
    cases taken

theorem Inv.worker_moves (h : Inv cfg s) (taken : work s = some t) : Moves cfg s .worker t := by
  have placed := h.placed
  have at_switch : s.job = .queued ∨ s.job = .popped → s.coro = .suspended 1 := by
    intro waits
    unfold State.Placed at placed
    split at placed
    all_goals
      first
      | assumption
      | (exfalso
         rcases waits with job | job <;> simp [job] at placed)
  cases at_pc : s.job with
  | queued =>
    simp only [work, at_pc] at taken
    cases taken
    exact .pop (at_switch (.inl at_pc)) at_pc
  | popped =>
    simp only [work, at_pc, State.resume, at_switch (.inr at_pc)] at taken
    cases taken
    exact .work (at_switch (.inr at_pc)) at_pc
  | none | resuming | returned =>
    simp only [work, at_pc] at taken
    cases taken

/-- Whoever has resumed the coroutine at its end returns into worker_loop or to func's own task. -/
theorem returns_worker (cfg : Config V E) {s : State V E} (by_worker : s.job = .resuming ∧ s.runner = .worker ∨
    s.job = .returned ∧ s.runner = .other) : s.returns cfg = { s with job := .returned } := by
  rcases by_worker with ⟨job, runner⟩ | ⟨job, runner⟩
  · simp only [State.returns, runner, if_true, reduceCtorEq, if_false]
  · simp only [State.returns, runner, reduceCtorEq, if_false, job]

theorem Inv.coroutine_moves (h : Inv cfg s) (taken : complete cfg s = some t) :
    Moves cfg s .coroutine t := by
  have placed := h.placed
  cases at_pc : s.coro with
  | suspended k | finished | threw | undefined =>
    simp only [complete, at_pc] at taken
    cases taken
  | running k =>
    cases k with
    | zero =>
      simp only [complete, at_pc] at taken
      cases taken
      exact .switch at_pc
    | succ k =>
      have held : s.pending = 0 ∧ k ≤ cfg.body.suspensions ∧
          (s.job = .resuming ∧ s.runner = .worker ∨ s.job = .returned ∧ s.runner = .other) := by
        simp only [State.Placed, at_pc] at placed
        cases k with
        | zero => exact ⟨placed.1, Nat.zero_le _, .inl placed.2.2⟩
        | succ k => exact ⟨placed.2.1, placed.1, .inr placed.2.2.2⟩
      simp only [complete, at_pc] at taken
      split at taken <;> cases taken
      · rename_i more
        have returns := returns_worker cfg (s := { s with
          coro := .suspended (k + 2), pending := s.pending + 1 }) held.2.2
        rw [returns, held.1]
        exact .suspend at_pc more
      · rename_i last
        have same : k = cfg.body.suspensions := Nat.le_antisymm held.2.1 (Nat.le_of_not_lt last)
        exact .emplace (same ▸ at_pc)
  | emplaced =>
    have unready : ¬ s.m_ready = true := by
      rw [h.ready, at_pc]
      exact Bool.false_ne_true
    simp only [complete, at_pc, if_neg unready] at taken
    cases taken
    exact .exchange at_pc
  | exchanged =>
    simp only [complete, at_pc] at taken
    cases taken
    exact .final_suspend at_pc
  | finalSuspend =>
    simp only [State.Placed, at_pc] at placed
    have entries : s.entries = [] := by
      rw [h.entries, at_pc]
      exact if_neg fun both => by cases both.1
    have ready : s.m_ready = true := by
      rw [h.ready, at_pc]
      rfl
    simp only [complete, at_pc] at taken
    split at taken <;> cases taken
    · rename_i registered
      rw [h.continuation, Bool.and_eq_true, decide_eq_true_eq] at registered
      have returns := returns_worker cfg (s := { s.enter with coro := .finished })
        placed.2.2
      have entered : s.entries ++ [(s.m_ready, s.m_data)] =
          if cfg.way = .coAwait then [(true, cfg.body.result.data)] else [] := by
        rw [if_pos registered.1, entries, ready, h.stored ready]
        rfl
      rw [returns, State.enter, entered]
      exact .finish at_pc
    · rename_i unregistered
      have returns := returns_worker cfg (s := { s with coro := .finished }) placed.2.2
      have none : s.entries = if cfg.way = .coAwait then [(true, cfg.body.result.data)] else [] := by
        rw [entries, if_neg fun way => unregistered ?_]
        rw [h.continuation, way, placed.2.1.registered]
        rfl
      rw [returns, none]
      exact .finish at_pc

theorem Inv.step_moves (h : Inv cfg s) (taken : step cfg s a = some t) : Moves cfg s a t := by
  unfold step at taken
  split at taken
  · cases taken
  · cases a with
    | worker => exact h.worker_moves taken
    | consumer => exact h.consumer_moves taken
    | coroutine => exact h.coroutine_moves taken
    | destroy =>
      simp only at taken
      split at taken <;> cases taken
      rename_i both
      rw [Bool.and_eq_true] at both
      exact .destroy both.1 both.2
    | awaited =>
      simp only at taken
      split at taken <;> cases taken
      rename_i owed
      have placed := h.placed
      unfold State.Placed at placed
      split at placed
      case h_5 k at_pc =>
        have one : s.pending - 1 = 0 := by rw [placed.2.1]
        rw [one, State.resume]
        simp only [at_pc]
        exact .awaited at_pc
      all_goals
        first
        | exact placed.elim
        | simp only [Nat.lt_irrefl, placed] at owed

theorem released_keeps {u : State V E} (h : s.released cfg = true)
    (consumer : u.consumer = s.consumer ∨ ∀ o, s.consumer ≠ .finished o)
    (entries : s.entries ≠ [] → u.entries ≠ []) : u.released cfg = true := by
  unfold State.released at h ⊢
  cases way : cfg.way with
  | get =>
    rw [way] at h
    cases at_pc : s.consumer with
    | finished o =>
      rcases consumer with same | no
      · rw [same, at_pc]
      · exact absurd at_pc (no o)
    | _ =>
      rw [at_pc] at h
      cases h
  | coAwait =>
    rw [way] at h
    simp only [Bool.not_eq_true', List.isEmpty_eq_false_iff] at h ⊢
    exact entries h

theorem start_inv (h : Inv cfg s) (at_coro : s.coro = .suspended 0)
    (unfinished : ∀ o, s.consumer ≠ .finished o) {c : Consumer V E} {continuation : Bool}
    (starting : c = .look ∨ c = .resume ∨ cfg.way = .coAwait ∧ (c = .store ∨ c = .check))
    (registered : continuation = (cfg.way = .coAwait && c.registered)) :
    Inv cfg { s with consumer := c, m_continuation := continuation } where
  placed := by
    have placed := h.placed
    simp only [State.Placed, at_coro] at placed ⊢
    exact ⟨placed.1, placed.2.1, starting⟩
  resumed := h.resumed
  ready := h.ready
  data := h.data
  continuation := registered
  entries := h.entries
  alive gone := released_keeps (h.alive gone) (.inr unfinished) id

theorem resume_inv (h : Inv cfg s) {k : Nat} (at_coro : s.coro = .suspended k) {u : State V E}
    (placed : u.Placed cfg) (now : u.coro = .running k) (resumed : u.resumed = s.resumed ++ [k])
    (same : u.m_ready = s.m_ready ∧ u.m_continuation = s.m_continuation ∧
      u.entries = s.entries ∧ u.alive = s.alive)
    (consumer : u.consumer.registered = s.consumer.registered)
    (finished : u.consumer = s.consumer ∨ ∀ o, s.consumer ≠ .finished o) : Inv cfg u where
  placed := placed
  resumed := by
    rw [resumed, h.resumed, at_coro, now]
    exact List.range_succ.symm
  ready := by
    rw [same.1, h.ready, at_coro, now]
    rfl
  data := by
    rw [now]
    exact nofun
  continuation := by rw [same.2.1, h.continuation, consumer]
  entries := by
    rw [same.2.2.1, h.entries, at_coro, now]
    simp only [reduceCtorEq, false_and, if_false]
  alive gone := by
    rw [same.2.2.2] at gone
    exact released_keeps (h.alive gone) finished fun some => same.2.2.1 ▸ some

theorem coroutine_inv (h : Inv cfg s) {u : State V E} (placed : u.Placed cfg)
    (running : s.coro ≠ .finished) (going : u.coro ≠ .finished)
    (resumptions : Coro.resumptions cfg.body.suspensions u.coro =
      Coro.resumptions cfg.body.suspensions s.coro)
    (ready : u.m_ready = Coro.complete u.coro)
    (data : Coro.stored u.coro = true → u.m_data = cfg.body.result.data)
    (same : u.resumed = s.resumed ∧ u.m_continuation = s.m_continuation ∧
      u.entries = s.entries ∧ u.alive = s.alive)
    (consumer : u.consumer.registered = s.consumer.registered)
    (finished : u.consumer = s.consumer ∨ ∀ o, s.consumer ≠ .finished o) : Inv cfg u where
  placed := placed
  resumed := by rw [same.1, h.resumed, resumptions]
  ready := ready
  data := data
  continuation := by rw [same.2.1, h.continuation, consumer]
  entries := by rw [same.2.2.1, h.entries, if_neg fun both => running both.1,
    if_neg fun both => going both.1]
  alive gone := by
    rw [same.2.2.2] at gone
    exact released_keeps (h.alive gone) finished fun some => same.2.2.1 ▸ some

theorem step_inv (h : Inv cfg s) (taken : step cfg s a = some t) : Inv cfg t := by
  have placed := h.placed
  cases h.step_moves taken with
  | early at_coro at_look way =>
    have continuation := h.continuation
    rw [way] at continuation
    refine start_inv h at_coro (fun o => by rw [at_look]; nofun) (.inr (.inl rfl)) ?_
    rw [continuation, way]
    rfl
  | await at_coro at_look way =>
    refine start_inv h at_coro (fun o => by rw [at_look]; nofun) (.inr (.inr ⟨way, .inl rfl⟩)) ?_
    rw [h.continuation, at_look]
    rfl
  | store at_coro at_store =>
    have way := h.starting (by rw [at_store]; exact ⟨nofun, nofun, nofun, nofun, nofun⟩)
    have coAwait : cfg.way = .coAwait := by
      rcases way.2 with no | no | way
      · rw [at_store] at no
        cases no
      · rw [at_store] at no
        cases no
      · exact way.1
    refine start_inv h at_coro (fun o => by rw [at_store]; nofun) (.inr (.inr ⟨coAwait, .inr rfl⟩)) ?_
    rw [coAwait]
    rfl
  | check at_coro at_check =>
    refine start_inv h at_coro (fun o => by rw [at_check]; nofun) (.inr (.inl rfl)) ?_
    rw [h.continuation, at_check]
    rfl
  | resume at_coro at_resume =>
    simp only [State.Placed, at_coro] at placed
    exact resume_inv h at_coro ⟨placed.1, placed.2.1, rfl⟩ rfl rfl ⟨rfl, rfl, rfl, rfl⟩
      (by rw [at_resume]; rfl) (.inr fun o => by rw [at_resume]; nofun)
  | switch at_coro =>
    simp only [State.Placed, at_coro] at placed
    refine coroutine_inv h ⟨placed.2.1, .inl ⟨rfl, placed.1⟩⟩ (by rw [at_coro]; nofun) nofun
      (by rw [at_coro]; rfl) (by rw [h.ready, at_coro]; rfl) nofun ⟨rfl, rfl, rfl, rfl⟩
      (by rw [placed.2.2]; rfl) (.inr fun o => by rw [placed.2.2]; nofun)
  | push at_coro at_push =>
    simp only [State.Placed, at_coro] at placed
    refine coroutine_inv h ?_ (by rw [at_coro]; nofun) (by rw [at_coro]; nofun) rfl h.ready h.data
      ⟨rfl, rfl, rfl, rfl⟩ (by rw [at_push, after_registered]; rfl)
      (.inr fun o => by rw [at_push]; nofun)
    simp only [State.Placed, at_coro]
    exact ⟨placed.1, .inr ⟨.inl rfl, .inl trivial⟩⟩
  | pop at_coro at_job =>
    simp only [State.Placed, at_coro] at placed
    refine coroutine_inv h ?_ (by rw [at_coro]; nofun) (by rw [at_coro]; nofun) rfl h.ready h.data
      ⟨rfl, rfl, rfl, rfl⟩ rfl (.inl rfl)
    simp only [State.Placed, at_coro]
    rcases placed.2 with pushing | pushed
    · rw [at_job] at pushing
      cases pushing.2
    · exact ⟨placed.1, .inr ⟨pushed.1, .inr trivial⟩⟩
  | work at_coro at_job =>
    simp only [State.Placed, at_coro] at placed
    have past : s.Past cfg := by
      rcases placed.2 with pushing | pushed
      · rw [at_job] at pushing
        cases pushing.2
      · exact pushed.1
    exact resume_inv h at_coro ⟨placed.1, past, rfl, rfl⟩ rfl rfl ⟨rfl, rfl, rfl, rfl⟩ rfl (.inl rfl)
  | @suspend k at_coro more =>
    have past : s.Past cfg := by
      simp only [State.Placed, at_coro] at placed
      cases k with
      | zero => exact placed.2.1
      | succ k => exact placed.2.2.1
    exact coroutine_inv h ⟨more, rfl, past, rfl⟩ (by rw [at_coro]; nofun) nofun
      (by rw [at_coro]; rfl) (by rw [h.ready, at_coro]; rfl) nofun ⟨rfl, rfl, rfl, rfl⟩ rfl (.inl rfl)
  | awaited at_coro =>
    simp only [State.Placed, at_coro] at placed
    exact resume_inv h at_coro ⟨placed.1, rfl, placed.2.2.1, placed.2.2.2, rfl⟩ rfl rfl
      ⟨rfl, rfl, rfl, rfl⟩ rfl (.inl rfl)
  | emplace at_coro =>
    have held : s.pending = 0 ∧ s.Past cfg ∧ (s.job = .resuming ∧ s.runner = .worker ∨
        s.job = .returned ∧ s.runner = .other) := by
      cases last : cfg.body.suspensions with
      | zero =>
        rw [last] at at_coro
        simp only [State.Placed, at_coro] at placed
        exact ⟨placed.1, placed.2.1, .inl placed.2.2⟩
      | succ k =>
        rw [last] at at_coro
        simp only [State.Placed, at_coro] at placed
        exact ⟨placed.2.1, placed.2.2.1, .inr placed.2.2.2⟩
    exact coroutine_inv h held (by rw [at_coro]; nofun) nofun (by rw [at_coro]; rfl)
      (by rw [h.ready, at_coro]; rfl) (fun _ => rfl) ⟨rfl, rfl, rfl, rfl⟩ rfl (.inl rfl)
  | exchange at_coro =>
    simp only [State.Placed, at_coro] at placed
    have past : ({ s with m_ready := true, coro := .exchanged } : State V E).Past cfg :=
      placed.2.1.imp_right fun finished => ⟨finished.1, rfl, finished.2.2⟩
    exact coroutine_inv h ⟨placed.1, past, placed.2.2⟩ (by rw [at_coro]; nofun) nofun
      (by rw [at_coro]; rfl) rfl (fun _ => h.data (by rw [at_coro]; rfl)) ⟨rfl, rfl, rfl, rfl⟩ rfl
      (.inl rfl)
  | final_suspend at_coro =>
    simp only [State.Placed, at_coro] at placed
    exact coroutine_inv h placed (by rw [at_coro]; nofun) nofun (by rw [at_coro]; rfl)
      (by rw [h.ready, at_coro]; rfl) (fun _ => h.data (by rw [at_coro]; rfl)) ⟨rfl, rfl, rfl, rfl⟩
      rfl (.inl rfl)
  | finish at_coro =>
    simp only [State.Placed, at_coro] at placed
    have entries : s.entries = [] := by
      rw [h.entries, at_coro]
      exact if_neg fun both => by cases both.1
    refine ⟨⟨placed.1, placed.2.1, rfl⟩, ?_, ?_, fun _ => h.data (by rw [at_coro]; rfl),
      h.continuation, ?_, fun gone => ?_⟩
    · rw [h.resumed, at_coro]
      rfl
    · rw [h.ready, at_coro]
      rfl
    · simp only [true_and]
    · exact released_keeps (h.alive gone) (.inl rfl) fun some => absurd entries some
  | get ready way at_wait =>
    obtain ⟨o, result⟩ : ∃ o, o = readData cfg.body.isVoid cfg.body.result.data := ⟨_, rfl⟩
    rw [← result]
    have past : ({ s with consumer := .finished o } : State V E).Past cfg :=
      .inr ⟨way, ready, congrArg _ result⟩
    refine ⟨?_, h.resumed, h.ready, h.data, ?_, h.entries, fun gone => ?_⟩
    · have complete := h.ready.symm.trans ready
      unfold State.Placed at placed ⊢
      cases at_coro : s.coro <;> rw [at_coro] at complete placed <;>
        first | exact ⟨placed.1, past, placed.2.2⟩ | cases complete
    · rw [h.continuation, at_wait]
      rfl
    · exact released_keeps (h.alive gone) (.inr fun o => by rw [at_wait]; nofun) id
  | destroy there released =>
    exact ⟨h.placed, h.resumed, h.ready, h.data, h.continuation, h.entries, fun _ => released⟩

theorem reached_inv (reached : Reached (system cfg) s) : Inv cfg s := by
  induction reached with
  | start first =>
    cases first
    exact initial_inv cfg
  | next _ _ taken ih => exact step_inv ih taken

/-- What the parties have left to do. -/
def Coro.due (suspensions : Nat) : Coro → Nat
  | .suspended k => 2 * (suspensions + 2 - k) + 3
  | .running k => 2 * (suspensions + 2 - k) + 2
  | .emplaced => 3
  | .exchanged => 2
  | .finalSuspend => 1
  | .finished | .threw | .undefined => 0

def Consumer.due : Consumer V E → Nat
  | .look => 7
  | .store => 6
  | .check => 5
  | .resume => 4
  | .resuming => 3
  | .push => 2
  | .wait => 1
  | .finished _ | .left => 0

def Job.due : Job → Nat
  | .none => 4
  | .queued => 3
  | .popped => 2
  | .resuming => 1
  | .returned => 0

def State.due (cfg : Config V E) (s : State V E) : Nat :=
  Coro.due cfg.body.suspensions s.coro + s.consumer.due + s.job.due +
    if s.alive then 1 else 0

end Pot.LazyPooledTask
