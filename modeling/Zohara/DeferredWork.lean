import Zohara.RingQueue

/-!
# Deferred events and work (src/events.rs, src/workqueue.rs)

Both queues are circular arrays under a lock, so a call is one step. process_events
pops until the queue is empty; what it prints is left out. process_work takes an item,
releases the lock and calls the function of the item, which may submit further items
or call process_work again.

The code of an item is given by the sequence of its calls into this module, each of
which may depend on the earlier answers. What else it does does not touch the queue.
Interrupt handlers submit between any two steps. Every call of process_work that has
not returned has a frame: at the head of its loop, or inside an item.
-/
namespace Zohara.DeferredWork
open Runs RingQueue List

/-! ## Events -/

inductive EventType where
  | keyboard | timer | disk | network | power
  | custom (id : UInt8)
  deriving DecidableEq, Repr

structure Event where
  eventType : EventType
  data0 : ℕ
  data1 : ℕ
  deriving DecidableEq, Repr

def eventQueueSize : ℕ := 128

def pushEvent (q : Circular Event) (event : Event) : Bool × Circular Event := q.push eventQueueSize event

def popEvent (q : Circular Event) : Option Event × Circular Event := q.pop eventQueueSize

def pendingEvents (q : Circular Event) : ℕ := q.count

def EventStep (q : Circular Event) : Op Event → Circular Event → Prop
  | .push event ok,q' => pushEvent q event = (ok,q')
  | .pop answer,q' => popEvent q = (answer,q')

/-- The loop of process_events, with a bound on its rounds. -/
def handleEvents : ℕ → Circular Event → List Event × Circular Event
  | 0,q => ([],q)
  | n+1,q =>
    match popEvent q with
    | (none,q) => ([],q)
    | (some e,q) => (e::(handleEvents n q).1,(handleEvents n q).2)

def processEvents (q : Circular Event) : List Event × Circular Event := handleEvents (q.count+1) q

theorem handleEvents_spec {q : Circular Event} {l : List Event} (h : Holds eventQueueSize q l) {n : ℕ}
    (hn : l.length < n) :
    (handleEvents n q).1 = l ∧ Holds eventQueueSize (handleEvents n q).2 [] := by
  induction n generalizing q l with
  | zero => cases hn
  | succ n ih =>
    unfold handleEvents popEvent
    cases l with
    | nil =>
      rw [h.pop_empty]
      exact ⟨rfl,h⟩
    | cons e l =>
      obtain ⟨hpop,hrest⟩ := h.pop_cons
      obtain ⟨hl,hq⟩ := ih hrest (Nat.lt_of_succ_lt_succ hn)
      rw [← Prod.eta (q.pop eventQueueSize), hpop]
      exact ⟨congrArg (e::·) hl,hq⟩

theorem processEvents_spec {q : Circular Event} {l : List Event} (h : Holds eventQueueSize q l) :
    (processEvents q).1 = l ∧ Holds eventQueueSize (processEvents q).2 [] :=
  handleEvents_spec h (by rw [h.count]; exact Nat.lt_succ_self _)

theorem processEvents_spec_one :
    (processEvents (pushEvent .empty ⟨.timer,1,2⟩).2).1 = [⟨.timer,1,2⟩] :=
  (processEvents_spec ((Holds.empty (by decide)).push_room (by decide)).2).1

/-! ## Work -/

/-- Function pointers are the elements of `φ`. -/
structure WorkItem (φ : Type) where
  func : φ
  arg : ℕ

def workQueueSize : ℕ := 64

def submit {φ : Type} (q : Circular (WorkItem φ)) (func : φ) (arg : ℕ) : Bool × Circular (WorkItem φ) :=
  q.push workQueueSize ⟨func,arg⟩

/-- The locked part of one round of process_work. -/
def takeWork {φ : Type} (q : Circular (WorkItem φ)) : Option (WorkItem φ) × Circular (WorkItem φ) :=
  q.pop workQueueSize

def pendingWork {φ : Type} (q : Circular (WorkItem φ)) : ℕ := q.count

/-- The calls that a function makes into the work queue. -/
inductive Calls (φ : Type) where
  | done
  | submit (func : φ) (arg : ℕ) (next : Bool → Calls φ)
  | processWork (next : Calls φ)

/-- The innermost call of process_work comes first. -/
structure State (φ : Type) where
  queue : Circular (WorkItem φ)
  stack : List (Option (Calls φ))

def boot (φ : Type) : State φ := ⟨.empty,[]⟩

inductive Action (φ : Type) where
  | submit (item : WorkItem φ) (ok : Bool)
  | call
  | run (item : WorkItem φ)
  | skip
  | back
  | finish

/-- One step of the innermost call of process_work. -/
def tick {φ : Type} (code : φ → ℕ → Calls φ) (queue : Circular (WorkItem φ))
    (rest : List (Option (Calls φ))) : Option (Calls φ) → Action φ × State φ
  | none =>
    if queue.count = 0 then (.finish,⟨queue,rest⟩) else
    match takeWork queue with
    | (some item,queue) => (.run item,⟨queue,some (code item.func item.arg)::rest⟩)
    | (none,queue) => (.skip,⟨queue,none::rest⟩)
  | some .done => (.back,⟨queue,none::rest⟩)
  | some (.submit func arg next) =>
    let r := submit queue func arg
    (.submit ⟨func,arg⟩ r.1,⟨r.2,some (next r.1)::rest⟩)
  | some (.processWork next) => (.call,⟨queue,none::some next::rest⟩)

/-- A label says whether process_work has made the step itself. -/
inductive Step {φ : Type} (code : φ → ℕ → Calls φ) : State φ → Bool × Action φ → State φ → Prop
  | outside {s : State φ} (func : φ) (arg : ℕ) :
      Step code s (false,.submit ⟨func,arg⟩ (submit s.queue func arg).1)
        {s with queue := (submit s.queue func arg).2}
  | call {s : State φ} : Step code s (false,.call) {s with stack := none::s.stack}
  | own {queue : Circular (WorkItem φ)} {frame : Option (Calls φ)} {rest : List (Option (Calls φ))} :
      Step code ⟨queue,frame::rest⟩ (true,(tick code queue rest frame).1) (tick code queue rest frame).2

/-- What an action is for the queue. -/
def Action.op {φ : Type} : Action φ → Option (Op (WorkItem φ))
  | .submit item ok => some (.push item ok)
  | .run item => some (.pop (some item))
  | .skip | .finish => some (.pop none)
  | .call | .back => none

def ops {φ : Type} (h : List (Bool × Action φ)) : List (Op (WorkItem φ)) :=
  h.filterMap fun a => a.2.op

/-- The items that were submitted with success, oldest first. -/
def accepted {φ : Type} (h : List (Bool × Action φ)) : List (WorkItem φ) := pushed (ops h)

/-- The items whose functions were called, oldest first. -/
def ran {φ : Type} (h : List (Bool × Action φ)) : List (WorkItem φ) := popped (ops h)

/-- The steps that process_work has made. -/
def ownSteps {φ : Type} (h : List (Bool × Action φ)) : ℕ := h.countP fun a => a.1

section
variable {φ : Type} {code : φ → ℕ → Calls φ} {s s' : State φ} {h : List (Bool × Action φ)}
variable {queue : Circular (WorkItem φ)} {rest : List (Option (Calls φ))}

theorem tick_empty (hc : queue.count = 0) : tick code queue rest none = (.finish,⟨queue,rest⟩) := by
  unfold tick
  rw [if_pos hc]

variable {queue' : Circular (WorkItem φ)}

theorem tick_take (hc : queue.count ≠ 0) {item : WorkItem φ}
    (ht : takeWork queue = (some item,queue')) :
    tick code queue rest none = (.run item,⟨queue',some (code item.func item.arg)::rest⟩) := by
  unfold tick
  rw [if_neg hc, ht]

theorem tick_skip (hc : queue.count ≠ 0) (ht : takeWork queue = (none,queue')) :
    tick code queue rest none = (.skip,⟨queue',none::rest⟩) := by
  unfold tick
  rw [if_neg hc, ht]

/-- A step makes one call on the queue, or leaves it alone. -/
def QueueStep (q : Circular (WorkItem φ)) (q' : Circular (WorkItem φ)) : Option (Op (WorkItem φ)) → Prop
  | some op => q.Step workQueueSize op q'
  | none => q' = q

theorem tick_queue (frame : Option (Calls φ)) :
    QueueStep queue (tick code queue rest frame).2.queue (tick code queue rest frame).1.op := by
  cases frame with
  | none =>
    by_cases hc : queue.count = 0
    · rw [tick_empty hc]
      change queue.pop workQueueSize = (none,queue)
      unfold Circular.pop
      rw [if_pos hc]
    · cases ht : takeWork queue with
      | mk item queue' =>
        cases item with
        | some item =>
          rw [tick_take hc ht]
          exact ht
        | none =>
          rw [tick_skip hc ht]
          exact ht
  | some p =>
    cases p <;> exact rfl

variable {a : Bool × Action φ}

theorem Step.queueStep (hs : Step code s a s') : QueueStep s.queue s'.queue a.2.op := by
  cases hs with
  | outside func arg | call => exact rfl
  | own => exact tick_queue _

theorem run_queue (r : Run (Step code) (boot φ) h s) :
    Run (Circular.Step workQueueSize) .empty (ops h) s.queue := by
  refine r.invariant (P := fun h s => Run (Circular.Step workQueueSize) .empty (ops h) s.queue) .start ?_
  intro h s a s' ih hs
  have hq := hs.queueStep
  unfold ops at ih ⊢
  cases hop : a.2.op with
  | none =>
    rw [hop] at hq
    rw [filterMap_cons_none (f := fun a : Bool × Action φ => a.2.op) hop, show s'.queue = s.queue from hq]
    exact ih
  | some op =>
    rw [hop] at hq
    rw [filterMap_cons_some (f := fun a : Bool × Action φ => a.2.op) hop]
    exact .next ih hq

/-! ## No item waits forever -/

/-- How many steps a function takes at most. -/
def Calls.depth : Calls φ → ℕ
  | .done => 0
  | .submit _ _ next => max (next true).depth (next false).depth+1
  | .processWork next => next.depth+1

def topDepth : List (Option (Calls φ)) → ℕ
  | some p::_ => p.depth+1
  | _ => 0

/-- The steps that process_work makes at most until it has called all of `items`. -/
def due (code : φ → ℕ → Calls φ) (items : List (WorkItem φ)) (stack : List (Option (Calls φ))) : ℕ :=
  topDepth stack+(items.map fun w => (code w.func w.arg).depth+2).sum

theorem depth_next {func : φ} {arg : ℕ} {next : Bool → Calls φ} (ok : Bool) :
    (next ok).depth < (Calls.submit func arg next).depth := by
  change (next ok).depth < max (next true).depth (next false).depth+1
  cases ok with
  | true => exact Nat.lt_succ_of_le (le_max_left _ _)
  | false => exact Nat.lt_succ_of_le (le_max_right _ _)

/-- The first items of the queue are called within `n` steps. -/
structure Due (code : φ → ℕ → Calls φ) (s : State φ) (items : List (WorkItem φ)) (n : ℕ) : Prop where
  waiting : ∃ later, Holds workQueueSize s.queue (items++later)
  busy : s.stack ≠ []
  bound : due code items s.stack ≤ n

variable {items : List (WorkItem φ)}

theorem submit_keeps (func : φ) (arg : ℕ) (hw : ∃ later, Holds workQueueSize queue (items++later)) :
    ∃ later, Holds workQueueSize (submit queue func arg).2 (items++later) := by
  obtain ⟨later,hq⟩ := hw
  unfold submit
  by_cases hroom : (items++later).length < workQueueSize
  · have hl := (hq.push_room (a := ⟨func,arg⟩) hroom).2
    rw [append_assoc] at hl
    exact ⟨_,hl⟩
  · rw [hq.push_full (le_antisymm hq.fits (not_lt.mp hroom))]
    exact ⟨later,hq⟩

theorem tick_inside (code : φ → ℕ → Calls φ) (rest : List (Option (Calls φ))) (p : Calls φ) (hw : ∃ later, Holds workQueueSize queue (items++later)) :
    (∀ w, (tick code queue rest (some p)).1 ≠ .run w) ∧
    (∃ later, Holds workQueueSize (tick code queue rest (some p)).2.queue (items++later)) ∧
    (tick code queue rest (some p)).2.stack ≠ [] ∧
    topDepth (tick code queue rest (some p)).2.stack < topDepth (some p::rest) := by
  cases p with
  | done =>
    refine ⟨?_,hw,cons_ne_nil _ _,Nat.succ_pos _⟩
    intro w h
    cases h
  | submit func arg next =>
    refine ⟨?_,submit_keeps func arg hw,cons_ne_nil _ _,?_⟩
    · intro w h
      cases h
    · exact Nat.succ_lt_succ (depth_next (submit queue func arg).1)
  | processWork next =>
    refine ⟨?_,hw,cons_ne_nil _ _,Nat.succ_pos _⟩
    intro w h
    cases h

/-- A step outside keeps the bound; a step of process_work lowers it. -/
theorem Due.step {item : WorkItem φ} {n : ℕ}
    (hd : Due code s (item::items) n) (hs : Step code s a s') :
    ((∀ w, a.2 ≠ .run w) ∧ ∃ m, Due code s' (item::items) m ∧ m+(if a.1 then 1 else 0) ≤ n) ∨
    (a = (true,.run item) ∧ ∃ m, Due code s' items m ∧ m+1 ≤ n) := by
  obtain ⟨hw,hb,hn⟩ := hd
  unfold due at hn
  cases hs with
  | outside func arg =>
    left
    constructor
    · intro w h
      cases h
    · exact ⟨n,⟨submit_keeps func arg hw,hb,hn⟩,le_refl n⟩
  | call =>
    left
    constructor
    · intro w h
      cases h
    · refine ⟨n,⟨hw,cons_ne_nil _ _,?_⟩,le_refl n⟩
      exact le_trans (Nat.add_le_add_right (Nat.zero_le _) _) hn
  | @own queue frame rest =>
    cases frame with
    | none =>
      right
      -- the queue is not empty, so the loop takes the first item
      obtain ⟨later,hq⟩ := hw
      obtain ⟨hpop,hrest⟩ := hq.pop_cons
      have hc : queue.count ≠ 0 := by
        rw [show queue.count = _ from hq.count]
        exact Nat.succ_ne_zero _
      rw [tick_take hc (Prod.ext hpop rfl)]
      rw [map_cons, sum_cons] at hn
      refine ⟨rfl,n-1,⟨⟨later,hrest⟩,cons_ne_nil _ _,?_⟩,by omega⟩
      change (code item.func item.arg).depth+1+_ ≤ n-1
      omega
    | some p =>
      left
      obtain ⟨hrun,hw',hb',hlt⟩ := tick_inside code rest p hw
      dsimp only at hn hlt
      refine ⟨hrun,n-1,⟨hw',hb',?_⟩,?_⟩
      · unfold due
        omega
      · rw [if_pos rfl]
        omega

theorem ran_cons (h : List (Bool × Action φ)) (ha : ∀ w, a.2 ≠ .run w) : ran (a::h) = ran h := by
  unfold ran ops
  cases hop : a.2.op with
  | none => rw [filterMap_cons_none (f := fun a : Bool × Action φ => a.2.op) hop]
  | some op =>
    rw [filterMap_cons_some (f := fun a : Bool × Action φ => a.2.op) hop]
    cases op with
    | push item ok => rfl
    | pop answer =>
      cases answer with
      | none => rfl
      | some w =>
        cases hact : a.2 with
        | run w' => exact absurd hact (ha w')
        | submit _ _ | call | skip | back | finish => rw [hact] at hop; cases hop

theorem ran_run (h : List (Bool × Action φ)) (own : Bool) (item : WorkItem φ) :
    ran ((own,.run item)::h) = ran h++[item] := rfl

theorem ran_grows (h : List (Bool × Action φ)) (a : Bool × Action φ) : ran h <+: ran (a::h) := by
  by_cases ha : ∃ w, a.2 = .run w
  · obtain ⟨w,hw⟩ := ha
    rw [show a = (a.1,.run w) from Prod.ext rfl hw, ran_run]
    exact prefix_append _ _
  · rewrite [ran_cons h fun w hw => ha ⟨w,hw⟩]
    exact prefix_refl _

theorem ownSteps_cons (h : List (Bool × Action φ)) (a : Bool × Action φ) :
    ownSteps (a::h) = ownSteps h+if a.1 then 1 else 0 := countP_cons

/-- Whatever is submitted in between, all items accepted so far are called after a number
of steps of process_work that is known beforehand. -/
theorem accepted_run (r : Run (Step code) (boot φ) h s) (hb : s.stack ≠ []) :
    ∃ n, ∀ h' s', Run (Step code) s h' s' → n ≤ ownSteps h' → accepted h <+: ran (h'++h) := by
  obtain ⟨l,hl,hq⟩ := Circular.run_fifo (by decide) (run_queue r)
  have hall : ran h++l = accepted h := Fifo.popped_append hl
  refine ⟨due code l s.stack+1,fun h' s' r' hn => ?_⟩
  have hinv := r'.invariant (P := fun h' s' => accepted h <+: ran (h'++h) ∨
    ∃ item items m, ran (h'++h)++item::items = accepted h ∧ Due code s' (item::items) m ∧
      m+ownSteps h' ≤ due code l s.stack) ?_ ?_
  · -- a bound that is used up leaves nothing to wait for
    rcases hinv with hdone | ⟨item,items,m,-,-,hm⟩
    · exact hdone
    · omega
  · cases l with
    | nil =>
      left
      rewrite [nil_append, ← hall, append_nil]
      exact prefix_refl _
    | cons item items =>
      right
      refine ⟨item,items,_,hall,⟨⟨[],?_⟩,hb,le_refl _⟩,le_refl _⟩
      rw [append_nil]
      exact hq
  · intro h' s' a s'' ih hs
    rcases ih with hdone | ⟨item,items,m,heq,hd,hm⟩
    · exact .inl (hdone.trans (ran_grows (h'++h) a))
    · rw [cons_append, ownSteps_cons]
      rcases hd.step hs with ⟨hrun,m',hd',hm'⟩ | ⟨ha,m',hd',hm'⟩
      · right
        refine ⟨item,items,m',?_,hd',by omega⟩
        rw [ran_cons (h'++h) hrun]
        exact heq
      · subst ha
        have heq' : ran ((true,Action.run item)::(h'++h))++items = accepted h := by
          rw [ran_run, append_assoc]
          exact heq
        cases items with
        | nil =>
          left
          rewrite [← heq', append_nil]
          exact prefix_refl _
        | cons next items =>
          right
          refine ⟨next,items,m',heq',hd',?_⟩
          rw [if_pos rfl]
          omega

end

/-! ## Both queues -/

/-- A queue with capacity `n` and history `h` behaves like the list `l`. -/
structure QueueOk {α : Type} (n : ℕ) (h : List (Op α)) (l : List α) (q : Circular α)
    (push : α → Bool × Circular α) (pop : Option α × Circular α) (pendingCount : ℕ) : Prop where
  refines : Run (Fifo n) [] h l
  order : popped h++l = pushed h
  refused : ∀ a, (push a).1 = false ↔ l.length = n
  unchanged : ∀ a, (push a).1 = false → (push a).2 = q
  oldest : pop.1 = l.head?
  none : pop.1 = none ↔ pendingCount = 0
  pending : pendingCount = (pushed h).length-(popped h).length

theorem queueOk {α : Type} {n : ℕ} {h : List (Op α)} {q : Circular α} (hn : 0 < n)
    (r : Run (Circular.Step n) .empty h q) : ∃ l, QueueOk n h l q (q.push n) (q.pop n) q.count := by
  obtain ⟨l,hl,hq⟩ := Circular.run_fifo hn r
  have hall := Fifo.popped_append hl
  have hfull : ∀ a, (q.push n a).1 = false → l.length = n := by
    intro a ha
    by_contra hne
    rw [(hq.push_room (lt_of_le_of_ne hq.fits hne)).1] at ha
    cases ha
  have hpop : (q.pop n).1 = l.head? := by
    cases l with
    | nil => rw [hq.pop_empty]; rfl
    | cons a l => exact hq.pop_cons.1
  refine ⟨l,hl,hall,?_,?_,hpop,?_,?_⟩
  · intro a
    constructor
    · exact hfull a
    · intro hlen
      rw [hq.push_full hlen]
  · intro a ha
    rw [hq.push_full (hfull a ha)]
  · rw [hpop, hq.count, head?_eq_none_iff, length_eq_zero_iff]
  · rw [← hall, length_append, hq.count]
    omega

/-- What process_work does in a reachable state: it calls the oldest item that has not
been called, returns when all have been called, and calls everything accepted so far. -/
structure WorkOk {φ : Type} (code : φ → ℕ → Calls φ) (h : List (Bool × Action φ)) (s : State φ) :
    Prop where
  next : ∀ item s', Step code s (true,.run item) s' → (accepted h)[(ran h).length]? = some item
  finished : ∀ s', Step code s (true,.finish) s' → ran h = accepted h
  progress : s.stack ≠ [] → ∃ n, ∀ h' s', Run (Step code) s h' s' → n ≤ ownSteps h' →
    accepted h <+: ran (h'++h)

theorem workOk {φ : Type} {code : φ → ℕ → Calls φ} {h : List (Bool × Action φ)} {s : State φ}
    (r : Run (Step code) (boot φ) h s) : WorkOk code h s := by
  obtain ⟨l,hl,hq⟩ := Circular.run_fifo (by decide) (run_queue r)
  have hall : ran h++l = accepted h := Fifo.popped_append hl
  constructor
  · intro item s' hs
    obtain ⟨l',hf,-⟩ := hq.step (show s.queue.Step workQueueSize (.pop (some item)) s'.queue from
      hs.queueStep)
    cases hf with
    | oldest =>
      rw [← hall, getElem?_append_right (le_refl _), Nat.sub_self]
      rfl
  · intro s' hs
    obtain ⟨l',hf,-⟩ := hq.step (show s.queue.Step workQueueSize (.pop none) s'.queue from
      hs.queueStep)
    cases hf with
    | nothing => rw [← hall, append_nil]
  · exact accepted_run r

/-- Both queues are bounded FIFO queues, and process_work drains its queue in order. -/
theorem queues_are_fifo :
    (∀ h q, Run EventStep .empty h q →
      ∃ l, QueueOk eventQueueSize h l q (pushEvent q) (popEvent q) (pendingEvents q)) ∧
    ∀ (φ : Type) (code : φ → ℕ → Calls φ) h s, Run (Step code) (boot φ) h s →
      (∃ l, QueueOk workQueueSize (ops h) l s.queue (fun w => submit s.queue w.func w.arg)
        (takeWork s.queue) (pendingWork s.queue)) ∧ WorkOk code h s := by
  constructor
  · intro h q r
    apply queueOk (by decide)
    apply r.mono
    intro q op q' hs
    cases op <;> exact hs
  · intro φ code h s r
    exact ⟨queueOk (by decide) (run_queue r),workOk r⟩

end Zohara.DeferredWork
