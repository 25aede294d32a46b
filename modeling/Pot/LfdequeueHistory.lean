import Mathlib.Algebra.Order.Ring.Int
import Pot.Chunks
import Pot.Histories
import Pot.LfdequeueSequential

/-! lfdequeue when its calls come one after the other: it is a deque of the items from top to
bottom, whichever buffers they are in. -/
namespace Pot.Lfdequeue
open Transition Histories

variable {Kid T : Type}

inductive Call (Kid T : Type) where
  | push (item : T)
  | pop
  | register (k : Kid)
  | popBack (k : Kid)

def Call.begins : Call Kid T → Act Kid T
  | .push item => .push item
  | .pop => .pop
  | .register k => .register k false
  | .popBack k => .popBack k

/-- The steps of the one who has called. -/
def Call.goesOn : Call Kid T → Act Kid T → Prop
  | .push _, .owner _ | .pop, .owner _ => True
  | .register k, .register j _ | .popBack k, .stealer j _ => j = k
  | _, _ => False

def Call.ended (s : State Kid T) : Call Kid T → Prop
  | .push _ | .pop => s.owner = .idle
  | .register k | .popBack k => s.stealer k = .idle

structure Resting (s : State Kid T) : Prop where
  owner : s.owner = .idle
  stealers : ∀ k, s.stealer k = .idle ∨ s.stealer k = .unregistered

/-- A token comes from register_stealer, and one stealer asks for one. -/
def Call.allowed (s : State Kid T) : Call Kid T → Prop
  | .push _ | .pop => True
  | .register k => s.stealer k = .unregistered
  | .popBack k => s.stealer k = .idle

/-- The deque as a list, from top to bottom. -/
def State.contents (s : State Kid T) : List T := (Int.range s.top s.bottom).map s.item

def deque (items : List T) : Call Kid T → List T × Option T
  | .push item => (items ++ [item], none)
  | .pop => (items.dropLast, items.getLast?)
  | .register _ => (items, none)
  | .popBack _ => (items.tail, items.head?)

theorem contents_push {s u : State Kid T} {item : T} (ordered : s.top ≤ s.bottom)
    (top : u.top = s.top) (bottom : u.bottom = s.bottom + 1)
    (items : u.item = Function.update s.item s.bottom item) :
    u.contents = s.contents ++ [item] := by
  rw [State.contents, top, bottom, Chunks.range_succ ordered, List.map_append, List.map_singleton,
    items, Function.update_self, State.contents]
  congr 1
  refine List.map_congr_left fun i mem => ?_
  exact Function.update_of_ne (Int.ne_of_lt (Int.mem_range_iff.mp mem).2) ..

theorem contents_empty {s : State Kid T} (none : s.bottom ≤ s.top) : s.contents = [] := by
  rw [State.contents, Chunks.range_empty none, List.map_nil]

theorem contents_last {s : State Kid T} (some : s.top < s.bottom) :
    s.contents = (Int.range s.top (s.bottom - 1)).map s.item ++ [s.item (s.bottom - 1)] := by
  have split : Int.range s.top s.bottom = Int.range s.top (s.bottom - 1) ++ [s.bottom - 1] := by
    have whole := Chunks.range_succ (Int.le_sub_one_of_lt some)
    rwa [Int.sub_add_cancel] at whole
  rw [State.contents, split, List.map_append, List.map_singleton]

theorem contents_first {s : State Kid T} (some : s.top < s.bottom) :
    s.contents = s.item s.top :: (Int.range (s.top + 1) s.bottom).map s.item := by
  have split : Int.range s.top s.bottom = s.top :: Int.range (s.top + 1) s.bottom := by
    rw [← Chunks.range_append (Int.le_add_one (Int.le_refl s.top)) some,
      Chunks.range_succ (Int.le_refl s.top), Chunks.range_empty (Int.le_refl s.top)]
    rfl
  rw [State.contents, split, List.map_cons]

theorem popped_contents {s u : State Kid T} {popped : Option (Int × T)} (items : u.item = s.item)
    (done : Popped s u.top u.bottom popped) :
    popped.map Prod.snd = s.contents.getLast? ∧ u.contents = s.contents.dropLast := by
  cases popped with
  | none =>
    obtain ⟨none, top, bottom⟩ := done
    rw [contents_empty none, contents_empty (by rw [top, bottom]; exact none)]
    exact ⟨rfl, rfl⟩
  | some popped =>
    obtain ⟨rfl, ⟨top, bottom, several⟩ | ⟨top, bottom, last⟩⟩ := done
    · have some : s.top < s.bottom := by omega
      rw [contents_last some, List.getLast?_concat, List.dropLast_concat, State.contents, top,
        bottom, items]
      exact ⟨rfl, rfl⟩
    · have some : s.top < s.bottom := by omega
      have one : Int.range s.top (s.bottom - 1) = [] := Chunks.range_empty (by omega)
      rw [contents_last some, List.getLast?_concat, List.dropLast_concat, one,
        contents_empty (Int.le_of_eq last)]
      exact ⟨rfl, rfl⟩

theorem stolen_contents {s u : State Kid T} {stolen : Option (Int × T)} (items : u.item = s.item)
    (bottom : u.bottom = s.bottom) (done : Stolen s u.top stolen) :
    stolen.map Prod.snd = s.contents.head? ∧ u.contents = s.contents.tail := by
  cases stolen with
  | none =>
    obtain ⟨none, top⟩ := done
    rw [contents_empty none, contents_empty (by rw [top, bottom]; exact none)]
    exact ⟨rfl, rfl⟩
  | some stolen =>
    obtain ⟨rfl, top, some⟩ := done
    rw [contents_first some, State.contents, top, bottom, items]
    exact ⟨rfl, rfl⟩

structure Sound (s : State Kid T) : Prop where
  inv : Inv s
  guarded : Guarded s

theorem away_from_buffers {s : State Kid T}
    (rests : ∀ k, s.stealer k = .idle ∨ s.stealer k = .unregistered) (k : Kid) (t : Int) (a : Nat)
    (stolen : Option (Int × T)) : s.stealer k ≠ .get t a ∧ s.stealer k ≠ .readId stolen a := by
  rcases rests k with at_rest | at_rest
  · rw [at_rest]; exact ⟨nofun, nofun⟩
  · rw [at_rest]; exact ⟨nofun, nofun⟩

theorem goesOn_push {item : T} {a : Act Kid T} (mine : (Call.push item).goesOn a) :
    ∃ junk, a = .owner junk := by
  cases a with
  | owner junk => exact ⟨junk, rfl⟩
  | _ => exact mine.elim

theorem goesOn_pop {a : Act Kid T} (mine : (Call.pop : Call Kid T).goesOn a) :
    ∃ junk, a = .owner junk := by
  cases a with
  | owner junk => exact ⟨junk, rfl⟩
  | _ => exact mine.elim

theorem goesOn_popBack {k : Kid} {a : Act Kid T}
    (mine : (Call.popBack k : Call Kid T).goesOn a) : ∃ junk, a = .stealer k junk := by
  cases a with
  | stealer j junk => exact ⟨junk, congrArg (Act.stealer · junk) mine⟩
  | _ => exact mine.elim

theorem goesOn_register {k : Kid} {a : Act Kid T}
    (mine : (Call.register k : Call Kid T).goesOn a) : ∃ spurious, a = .register k spurious := by
  cases a with
  | register j spurious => exact ⟨spurious, congrArg (Act.register · spurious) mine⟩
  | _ => exact mine.elim

theorem answer_eq {logged popped : List (Int × T)} {answer : Option T} {last : Option (Int × T)}
    (returned : popped = logged ++ last.toList)
    (answered : popped.map Prod.snd = logged.map Prod.snd ++ answer.toList) :
    answer = last.map Prod.snd := by
  rw [returned, List.map_append] at answered
  have same := List.append_cancel_left answered
  cases last with
  | none =>
    cases answer with
    | none => rfl
    | some => cases same
  | some =>
    cases answer with
    | none => cases same
    | some => cases same; rfl

/-- What stands between two calls. -/
structure Holds (s : State Kid T) (items : List T) : Prop where
  sound : Sound s
  rests : Resting s
  contents : s.contents = items

theorem contents_length {s : State Kid T} (ordered : s.top ≤ s.bottom) :
    (s.contents.length : Int) = s.bottom - s.top := by
  simp only [State.contents, Int.range, List.length_map, List.length_range]
  omega

/-- A buffer only doubles when it is full, so its size stays within an int. -/
theorem grown_bound [Inhabited T] {s : State Kid T} {items : List T} {log_size : Nat}
    (h : Holds s items) (grown : Grown s log_size)
    (before : (s.buffer s.active_buffer).log_size ≤ 30) (few : items.length + 1 < 2 ^ 30) :
    log_size ≤ 30 := by
  rcases grown with same | ⟨larger, full⟩
  · omega
  · have ordered : s.top ≤ s.bottom := by
      have ordered := h.sound.inv.core.ordered
      rwa [h.rests.owner] at ordered
    have length := contents_length ordered
    rw [h.contents] at length
    have small : (s.buffer s.active_buffer).size < 2 ^ 30 := by omega
    have below : (s.buffer s.active_buffer).log_size < 30 := by
      have pow : (2 : Int) ^ (s.buffer s.active_buffer).log_size < 2 ^ 30 := small
      exact (pow_lt_pow_iff_right₀ (by decide)).mp pow
    omega

theorem initial_holds [Inhabited T] : Holds (initial Kid T) [] where
  sound := ⟨initial_inv, initial_guarded⟩
  rests := ⟨rfl, fun _ => .inr rfl⟩
  contents := contents_empty (Int.le_refl _)

variable [DecidableEq Kid]

/-- What disturbs owner and stealers is an owner at work while a stealer is. -/
theorem sound_step [Inhabited T] {s u : State Kid T} {a : Act Kid T} (h : Sound s)
    (taken : step s a = some u)
    (lone : ∀ junk, a = .owner junk → ∀ k, s.stealer k = .idle ∨ s.stealer k = .unregistered) :
    Sound u := by
  refine ⟨step_inv h.inv ?_ taken, step_guarded h.guarded ?_ taken⟩
  · cases a with
    | owner junk =>
      have apart := away_from_buffers (lone junk rfl)
      simp only [Undisturbed]
      split
      · exact fun k t getting => absurd getting (apart k t _ none).1
      · trivial
    | stealer k junk =>
      have live := h.guarded.safe.stealer k
      simp only [Undisturbed]
      split
      · rename_i at_get
        rw [at_get] at live
        exact live _ List.mem_cons_self
      · trivial
    | _ => trivial
  · cases a with
    | owner junk =>
      have apart := away_from_buffers (lone junk rfl)
      exact fun reclaimed _ k stolen => (apart k 0 reclaimed stolen).2
    | _ => trivial

/-- One uninterrupted call, from its first step to its last. -/
structure Calls [Inhabited T] (s : State Kid T) (call : Call Kid T) (answer : Option T)
    (u : State Kid T) : Prop where
  rests : Resting s
  run : ∃ as, (∀ a ∈ as, call.goesOn a) ∧ replay (system Kid T) s (call.begins :: as) = some u
  ended : call.ended u
  answered : u.returned.map Prod.snd = s.returned.map Prod.snd ++ answer.toList

section Runs

variable [Inhabited T] {s₀ s u : State Kid T} {items : List T}

theorem push_sound (rests : Resting s₀) {item : T} {a : Act Kid T}
    (h : Sound s ∧ Pushing s₀ item s) (mine : (Call.push item).goesOn a)
    (taken : step s a = some u) : Sound u ∧ Pushing s₀ item u := by
  obtain ⟨junk, rfl⟩ := goesOn_push mine
  obtain ⟨sound, pushing⟩ := h
  refine ⟨sound_step sound taken fun _ _ k => ?_, push_step pushing taken⟩
  rw [pushing.stealer]
  exact rests.stealers k

theorem pop_sound (rests : Resting s₀) {a : Act Kid T} (h : Sound s ∧ Popping s₀ s)
    (mine : (Call.pop : Call Kid T).goesOn a) (taken : step s a = some u) :
    Sound u ∧ Popping s₀ u := by
  obtain ⟨junk, rfl⟩ := goesOn_pop mine
  obtain ⟨sound, popping⟩ := h
  refine ⟨sound_step sound taken fun _ _ k => ?_, pop_step sound.inv popping taken⟩
  rw [popping.stealer]
  exact rests.stealers k

theorem steal_sound {k : Kid} {a : Act Kid T} (h : Sound s ∧ Stealing s₀ k s)
    (mine : (Call.popBack k : Call Kid T).goesOn a) (taken : step s a = some u) :
    Sound u ∧ Stealing s₀ k u := by
  obtain ⟨junk, rfl⟩ := goesOn_popBack mine
  obtain ⟨sound, stealing⟩ := h
  refine ⟨sound_step sound taken (fun _ same => by cases same), ?_⟩
  exact (steal_step sound.inv sound.guarded.safe stealing taken).1

/-- register_stealer concerns the list of tokens only. -/
structure Registering (s₀ : State Kid T) (k : Kid) (s : State Kid T) : Prop where
  top : s.top = s₀.top
  bottom : s.bottom = s₀.bottom
  item : s.item = s₀.item
  owner : s.owner = s₀.owner
  buffer : s.buffer = s₀.buffer
  active : s.active_buffer = s₀.active_buffer
  returned : s.returned = s₀.returned
  others : ∀ j, j ≠ k → s.stealer j = s₀.stealer j

theorem register_sound {k : Kid} {a : Act Kid T} (h : Sound s ∧ Registering s₀ k s)
    (mine : (Call.register k : Call Kid T).goesOn a) (taken : step s a = some u) :
    Sound u ∧ Registering s₀ k u := by
  obtain ⟨spurious, rfl⟩ := goesOn_register mine
  obtain ⟨sound, same⟩ := h
  refine ⟨sound_step sound taken (fun _ same => by cases same), ?_⟩
  have others : ∀ (p : Stealer Kid T) j, j ≠ k →
      Function.update s.stealer k p j = s₀.stealer j := fun p j other =>
    (Function.update_of_ne other ..).trans (same.others j other)
  change registerStep s k spurious (s.stealer k) = some u at taken
  cases hk : s.stealer k with
  | unregistered =>
    rw [hk] at taken
    cases taken
    exact ⟨same.top, same.bottom, same.item, same.owner, same.buffer, same.active, same.returned,
      others _⟩
  | registering next =>
    rw [hk] at taken
    simp only [registerStep] at taken
    split at taken <;> cases taken
    · exact ⟨same.top, same.bottom, same.item, same.owner, same.buffer, same.active, same.returned,
        others _⟩
    · exact ⟨same.top, same.bottom, same.item, same.owner, same.buffer, same.active, same.returned,
        others _⟩
  | _ => rw [hk] at taken; cases taken

theorem push_begins (h : Holds s₀ items) (item : T) :
    ∃ u, step s₀ (.push item) = some u ∧ Sound u ∧ Pushing s₀ item u := by
  have taken : step s₀ (.push item) = some { s₀ with owner := .pushTop item s₀.bottom } := by
    simp only [step, h.rests.owner]
  have sound := sound_step h.sound taken fun _ same => by cases same
  exact ⟨_, taken, sound, rfl, rfl, rfl, .inl rfl, rfl, rfl, rfl, rfl, rfl, rfl⟩

theorem pop_begins (h : Holds s₀ items) :
    ∃ u, step s₀ .pop = some u ∧ Sound u ∧ Popping s₀ u := by
  have taken : step s₀ .pop = some { s₀ with owner := .popBuffer s₀.bottom } := by
    simp only [step, h.rests.owner]
  have sound := sound_step h.sound taken fun _ same => by cases same
  exact ⟨_, taken, sound, rfl, rfl, Nat.le_refl _, rfl, rfl, rfl, rfl⟩

theorem popBack_begins (h : Holds s₀ items) {k : Kid} (registered : s₀.stealer k = .idle) :
    ∃ u, step s₀ (.popBack k) = some u ∧ Sound u ∧ Stealing s₀ k u := by
  have taken : step s₀ (.popBack k) = some
      ((s₀.setToken k { s₀.token k with was_idle := false }).setStealer k .loadTop) := by
    simp only [step, registered]
  have loads := stealer_self (s₀.setToken k { s₀.token k with was_idle := false }) k .loadTop
  have sound := sound_step h.sound taken fun _ same => by cases same
  refine ⟨_, taken, sound, rfl, rfl, rfl,
    fun j other => Function.update_of_ne other .., rfl, ?_⟩
  rw [loads]
  exact ⟨rfl, rfl⟩

theorem call_run {I : State Kid T → Prop} {call : Call Kid T}
    (preserves : ∀ s a u, I s → call.goesOn a → step s a = some u → I u)
    (begins : ∀ u, step s₀ call.begins = some u → I u)
    (run : ∃ as, (∀ a ∈ as, call.goesOn a) ∧
      replay (system Kid T) s₀ (call.begins :: as) = some u) : I u := by
  obtain ⟨as, mine, run⟩ := run
  simp only [replay, Option.bind_eq_some_iff] at run
  obtain ⟨v, hv, rest⟩ := run
  have kept : ∀ s a u, I s → call.goesOn a → (system Kid T).step s a = some u → I u := preserves
  exact replay_among kept (begins v hv) as mine rest

theorem push_run {item : T} {answer : Option T} (h : Holds s₀ items)
    (calls : Calls s₀ (.push item) answer u) : Sound u ∧ Pushing s₀ item u := by
  refine call_run (fun s a u => push_sound h.rests) (fun v taken => ?_) calls.run
  obtain ⟨w, hw, begun⟩ := push_begins h item
  cases hw.symm.trans taken
  exact begun

theorem push_calls {item : T} {answer : Option T} (h : Holds s₀ items)
    (calls : Calls s₀ (.push item) answer u) :
    answer = none ∧ Holds u (items ++ [item]) ∧
      Grown s₀ (u.buffer u.active_buffer).log_size := by
  obtain ⟨sound, pushing⟩ := push_run h calls
  have idle : u.owner = .idle := calls.ended
  have place := pushing.place
  have grown := pushing.grown
  rw [idle] at place grown
  have ordered : s₀.top ≤ s₀.bottom := by
    have ordered := h.sound.inv.core.ordered
    rwa [h.rests.owner] at ordered
  have returned : u.returned = s₀.returned ++ (none : Option (Int × T)).toList := by
    rw [pushing.returned]
    exact (List.append_nil _).symm
  refine ⟨answer_eq returned calls.answered,
    ⟨sound, ⟨idle, pushing.stealer ▸ h.rests.stealers⟩, ?_⟩, grown⟩
  rw [contents_push ordered pushing.top place.1 place.2, h.contents]

theorem pop_run {answer : Option T} (h : Holds s₀ items) (calls : Calls s₀ .pop answer u) :
    Sound u ∧ Popping s₀ u := by
  refine call_run (fun s a u => pop_sound h.rests) (fun v taken => ?_) calls.run
  obtain ⟨w, hw, begun⟩ := pop_begins h
  cases hw.symm.trans taken
  exact begun

theorem pop_calls {answer : Option T} (h : Holds s₀ items) (calls : Calls s₀ .pop answer u) :
    answer = items.getLast? ∧ Holds u items.dropLast ∧
      (u.buffer u.active_buffer).log_size ≤ (s₀.buffer s₀.active_buffer).log_size := by
  obtain ⟨sound, popping⟩ := pop_run h calls
  have idle : u.owner = .idle := calls.ended
  have place := popping.place
  have shrunk := popping.shrunk
  rw [idle] at place shrunk
  obtain ⟨popped, done, returned⟩ := place
  obtain ⟨last, rest⟩ := popped_contents popping.item done
  rw [h.contents] at last rest
  exact ⟨(answer_eq returned calls.answered).trans last,
    ⟨sound, ⟨idle, popping.stealer ▸ h.rests.stealers⟩, rest⟩, shrunk⟩

theorem popBack_run {k : Kid} {answer : Option T} (h : Holds s₀ items)
    (calls : Calls s₀ (.popBack k) answer u) : Sound u ∧ Stealing s₀ k u := by
  refine call_run (fun s a u => steal_sound) (fun v taken => ?_) calls.run
  have registered : s₀.stealer k = .idle := by
    simp only [Call.begins, step] at taken
    split at taken
    · assumption
    · cases taken
  obtain ⟨w, hw, begun⟩ := popBack_begins h registered
  cases hw.symm.trans taken
  exact begun

theorem popBack_calls {k : Kid} {answer : Option T} (h : Holds s₀ items)
    (calls : Calls s₀ (.popBack k) answer u) :
    answer = items.head? ∧ Holds u items.tail ∧
      (u.buffer u.active_buffer).log_size = (s₀.buffer s₀.active_buffer).log_size := by
  obtain ⟨sound, stealing⟩ := popBack_run h calls
  have idle : u.stealer k = .idle := calls.ended
  have place := stealing.place
  rw [idle] at place
  obtain ⟨stolen, done, returned⟩ := place
  obtain ⟨first, rest⟩ := stolen_contents stealing.item stealing.bottom done
  rw [h.contents] at first rest
  refine ⟨(answer_eq returned calls.answered).trans first,
    ⟨sound, ⟨stealing.owner.trans h.rests.owner, fun j => ?_⟩, rest⟩, stealing.log_size⟩
  by_cases other : j = k
  · exact .inl (other ▸ idle)
  · rw [stealing.others j other]
    exact h.rests.stealers j

theorem register_run {k : Kid} {answer : Option T} (h : Holds s₀ items)
    (calls : Calls s₀ (.register k) answer u) : Sound u ∧ Registering s₀ k u := by
  have unmoved : Registering s₀ k s₀ := ⟨rfl, rfl, rfl, rfl, rfl, rfl, rfl, fun _ _ => rfl⟩
  refine call_run (fun s a u => register_sound) (fun v taken => ?_) calls.run
  exact register_sound ⟨h.sound, unmoved⟩ (a := .register k false) rfl taken

theorem register_calls {k : Kid} {answer : Option T} (h : Holds s₀ items)
    (calls : Calls s₀ (.register k) answer u) :
    answer = none ∧ Holds u items ∧
      (u.buffer u.active_buffer).log_size = (s₀.buffer s₀.active_buffer).log_size := by
  obtain ⟨sound, same⟩ := register_run h calls
  have idle : u.stealer k = .idle := calls.ended
  have returned : u.returned = s₀.returned ++ (none : Option (Int × T)).toList := by
    rw [same.returned]
    exact (List.append_nil _).symm
  refine ⟨answer_eq returned calls.answered,
    ⟨sound, ⟨same.owner.trans h.rests.owner, fun j => ?_⟩, ?_⟩, by rw [same.buffer, same.active]⟩
  · by_cases other : j = k
    · exact .inl (other ▸ idle)
    · rw [same.others j other]
      exact h.rests.stealers j
  · rw [State.contents, same.top, same.bottom, same.item]
    exact h.contents

theorem owner_finishes {I : State Kid T → Prop} {call : Call Kid T}
    (mine : ∀ junk, call.goesOn (.owner junk)) (ended : ∀ u, u.owner = .idle → call.ended u)
    (preserves : ∀ s a u, Sound s ∧ I s → call.goesOn a → step s a = some u → Sound u ∧ I u)
    (begun : ∃ u, step s₀ call.begins = some u ∧ Sound u ∧ I u) :
    ∃ u, (∃ as, (∀ a ∈ as, call.goesOn a) ∧
      replay (system Kid T) s₀ (call.begins :: as) = some u) ∧ call.ended u ∧ I u := by
  obtain ⟨v, first, begun⟩ := begun
  have junk : Junk T := ⟨default, 0⟩
  have moves : ∀ s, Sound s ∧ I s → ¬ s.owner = .idle → ∃ u,
      (system Kid T).step s (.owner junk) = some u ∧ (Sound u ∧ I u) ∧
        u.owner.left u < s.owner.left s := by
    intro s hs busy
    obtain ⟨u, hu⟩ := owner_moves s junk busy
    exact ⟨u, hu, preserves s _ u hs (mine junk) hu,
      owner_left hs.1.guarded.linked hs.1.guarded.owner hu⟩
  obtain ⟨n, u, run, ⟨-, kept⟩, idle⟩ := replay_home (system Kid T) _ _ _ _ moves begun
  have begins : (system Kid T).step s₀ call.begins = some v := first
  refine ⟨u, ⟨_, fun a mem => ?_, (replay_cons begins _).trans run⟩, ended u idle, kept⟩
  exact List.eq_of_mem_replicate mem ▸ mine junk

theorem call_returns (h : Holds s₀ items) {call : Call Kid T} (allowed : call.allowed s₀) :
    ∃ answer u, Calls s₀ call answer u := by
  cases call with
  | push item =>
    have mine : ∀ junk, (Call.push item : Call Kid T).goesOn (.owner junk) := fun _ => trivial
    obtain ⟨u, run, ended, pushing⟩ := owner_finishes mine (fun _ => id)
      (fun s a u => push_sound h.rests) (push_begins h item)
    exact ⟨none, u, h.rests, run, ended, by rw [pushing.returned]; simp⟩
  | pop =>
    have mine : ∀ junk, (Call.pop : Call Kid T).goesOn (.owner junk) := fun _ => trivial
    obtain ⟨u, run, ended, popping⟩ := owner_finishes mine (fun _ => id)
      (fun s a u => pop_sound h.rests) (pop_begins h)
    have idle : u.owner = .idle := ended
    have place := popping.place
    rw [idle] at place
    obtain ⟨popped, -, returned⟩ := place
    exact ⟨popped.map Prod.snd, u, h.rests, run, ended, by rw [returned]; cases popped <;> simp⟩
  | register k =>
    have fresh : s₀.stealer k = .unregistered := allowed
    have first : (system Kid T).step s₀ (.register k false) = some
        ((s₀.setToken k ⟨0, true⟩).setStealer k (.registering s₀.id_list)) := by
      simp only [system, step, fresh, registerStep]
    have second : (system Kid T).step
        ((s₀.setToken k ⟨0, true⟩).setStealer k (.registering s₀.id_list)) (.register k false) =
        some ({ (s₀.setToken k ⟨0, true⟩).setStealer k (.registering s₀.id_list) with
          id_list := k :: s₀.id_list }.setStealer k .idle) := by
      simp only [system, step, stealer_self, registerStep]
      exact if_pos ⟨rfl, Bool.false_ne_true⟩
    refine ⟨none, _, h.rests, ⟨[.register k false], fun a mem => ?_,
      (replay_cons first _).trans (replay_cons second _)⟩, stealer_self _ k _,
      (List.append_nil _).symm⟩
    rw [List.mem_singleton.mp mem]
    rfl
  | popBack k =>
    have registered : s₀.stealer k = .idle := allowed
    obtain ⟨v, first, begun⟩ := popBack_begins h registered
    have junk : Junk T := ⟨default, 0⟩
    have mine : (Call.popBack k : Call Kid T).goesOn (.stealer k junk) := rfl
    have moves : ∀ s, Sound s ∧ Stealing s₀ k s → ¬ s.stealer k = .idle → ∃ u,
        (system Kid T).step s (.stealer k junk) = some u ∧ (Sound u ∧ Stealing s₀ k u) ∧
          (u.stealer k).left < (s.stealer k).left := by
      intro s hs busy
      obtain ⟨u, hu⟩ : ∃ u, stealerStep s k junk (s.stealer k) = some u := stealer_moves hs.2 busy
      exact ⟨u, hu, steal_sound hs mine hu, (steal_step hs.1.inv hs.1.guarded.safe hs.2 hu).2⟩
    obtain ⟨n, u, run, ⟨-, stealing⟩, idle⟩ := replay_home (system Kid T) _ _ _ _ moves begun
    have begins : (system Kid T).step s₀ (.popBack k) = some v := first
    have place := stealing.place
    rw [idle] at place
    obtain ⟨stolen, -, returned⟩ := place
    refine ⟨stolen.map Prod.snd, u, h.rests, ⟨_, fun a mem => ?_, (replay_cons begins _).trans run⟩,
      idle, by rw [returned]; cases stolen <;> simp⟩
    rw [List.eq_of_mem_replicate mem]
    rfl

end Runs

theorem calls_refine [Inhabited T] {s u : State Kid T} {items : List T} {call : Call Kid T}
    {answer : Option T} (h : Holds s items) (calls : Calls s call answer u) :
    answer = (deque items call).2 ∧ Holds u (deque items call).1 := by
  cases call with
  | push item => exact ⟨(push_calls h calls).1, (push_calls h calls).2.1⟩
  | pop => exact ⟨(pop_calls h calls).1, (pop_calls h calls).2.1⟩
  | register k => exact ⟨(register_calls h calls).1, (register_calls h calls).2.1⟩
  | popBack k => exact ⟨(popBack_calls h calls).1, (popBack_calls h calls).2.1⟩

theorem history_holds [Inhabited T] {h : List (Call Kid T × Option T)} {s : State Kid T}
    (history : History (fun s => s = initial Kid T) Calls h s) :
    h.map Prod.snd = answers deque [] (h.map Prod.fst) ∧
      Holds s (after deque [] (h.map Prod.fst)) :=
  history.refines Holds (fun _ start => start ▸ initial_holds)
    fun _ _ _ _ _ before calls => calls_refine before calls

theorem history_size [Inhabited T] {h : List (Call Kid T × Option T)} {s : State Kid T}
    (history : History (fun s => s = initial Kid T) Calls h s)
    (few : ∀ calls, calls <+: h.map Prod.fst → (after deque [] calls).length < 2 ^ 30) :
    (s.buffer s.active_buffer).log_size ≤ 30 := by
  induction history with
  | nil start =>
    cases start
    change log_initial_size ≤ 30
    decide
  | @snoc h s call answer u history calls ih =>
    rw [List.map_append, List.map_singleton] at few
    have before := ih fun earlier within => few earlier (within.trans (List.prefix_append ..))
    have holds := (history_holds history).2
    cases call with
    | push item =>
      have next := few _ (List.prefix_refl _)
      rw [after_snoc, deque, List.length_append, List.length_singleton] at next
      exact grown_bound holds (push_calls holds calls).2.2 before next
    | pop => exact Nat.le_trans (pop_calls holds calls).2.2 before
    | register k => exact (register_calls holds calls).2.2 ▸ before
    | popBack k => exact (popBack_calls holds calls).2.2 ▸ before

end Pot.Lfdequeue
