import MalakethTurbo.App.Run
import MalakethTurbo.Data.ListEntry

/-!
# Blocks executed in the background

A commit hands its block to a background task and does not wait for it.  A task runs
`BlockExecutor::next_block`: it reads the latest state of the executor's database,
executes the block on it, and appends the block with what came out.  Between these steps
anything may happen: other tasks, further commits.  A task that fails is logged, and the
node goes on.

Whatever the interleaving, each block is appended at most once.  In what order, and on
what state it was executed, is settled only if the tasks do not overlap: then the blocks
come in the order of the commits, each executed on the state its predecessor has left,
and only those whose task has failed are missing.
-/

namespace MalakethTurbo

open Wire (Bytes)

/-! ## The executor -/

/-- The functions that the executor takes from its library, on the states of its
database. -/
class Executor where
  ChainState : Type
  Block : Type
  Result : Type
  /-- Reading the payload and turning it into a block. -/
  parse : Bytes → Option Block
  /-- The number of transactions of a block. -/
  transactions : Block → Nat
  /-- Recovering the signers of the transactions. -/
  recover : Block → Option Block
  execute : ChainState → Block → Option Result
  /-- Whether each receipt reports success. -/
  receipts : Result → List Bool
  /-- Appending a block with its outcome, and committing. -/
  append : ChainState → Block → Result → Option ChainState

section Executor

variable [Executor]

/-- `BlockExecutor::next_block` between reading the latest state and appending the
block. -/
def executeBlock (state : Executor.ChainState) (data : Bytes) :
    Option (Executor.Block × Executor.Result) := do
  let block ← Executor.parse data
  let recovered ← Executor.recover block
  let result ← Executor.execute state recovered
  if (Executor.receipts result).length ≠ Executor.transactions block then none
  else if (Executor.receipts result).all id then some (recovered, result)
  else none

/-- How far a task has come.  What `next_block` compares after the commit decides only what
is logged, so a block that is appended ends its task. -/
inductive Phase where
  | spawned : Phase
  | loaded : Executor.ChainState → Phase
  | executed : Executor.ChainState → Executor.Block → Executor.Result → Phase
  | appended : Phase
  | failed : Phase

/-- A background task for the block of a height. -/
structure Task where
  height : Height
  data : Bytes
  phase : Phase

/-- The block a task is for. -/
def Task.block (task : Task) : Height × Bytes := (task.height, task.data)

/-- A block in the database: the state it was executed on and the state it left. -/
structure Appended where
  height : Height
  data : Bytes
  base : Executor.ChainState
  after : Executor.ChainState

def Appended.block (b : Appended) : Height × Bytes := (b.height, b.data)

/-- A node with its tasks and the database of its executor; the first state of the database,
the decided blocks and the blocks appended are kept for the statements. -/
structure Execution where
  node : State
  tasks : List Task
  database : Executor.ChainState
  first : Executor.ChainState
  decided : List (Height × Bytes)
  blocks : List Appended

/-- What happens next: the node handles a message, or a task takes a step. -/
inductive Move where
  | handle : AppMsg → Move
  | load : Nat → Move
  | execute : Nat → Move
  | append : Nat → Move
  | fail : Nat → Move

end Executor

/-- The tasks spawned among the effects. -/
def spawns (es : List Effect) : List (Height × Bytes) :=
  es.filterMap fun
    | .spawn height data => some (height, data)
    | _ => none

/-- The decided block data written among the effects, those of empty blocks apart. -/
def decidedBlocks (es : List Effect) : List (Height × Bytes) :=
  (writes es).filterMap fun
    | .decidedBlockData height data => if data = [] then none else some (height, data)
    | _ => none

/-! ## What a commit spawns -/

section Spawning

@[simp] theorem spawns_append (es es' : List Effect) :
    spawns (es ++ es') = spawns es ++ spawns es' :=
  List.filterMap_append

@[simp] theorem decidedBlocks_append (es es' : List Effect) :
    decidedBlocks (es ++ es') = decidedBlocks es ++ decidedBlocks es' := by
  rw [decidedBlocks, writes_append, List.filterMap_append]
  rfl

variable [Crypto] [Prost] [Payload] {s : State}

omit [Crypto] [Prost] [Payload] in
/-- On a node that serves RPC, a commit spawns a task for a block that is not empty. -/
theorem spawns_commitEffects (hrpc : s.rpcServer = true) (c : CommitCertificate)
    (p : ProposedValue) : spawns (s.commitEffects c p) = decidedBlocks (s.commitEffects c p) := by
  have hdata : spawns (s.blockDataEffects c) = decidedBlocks (s.blockDataEffects c) := by
    rw [State.blockDataEffects]
    cases s.store.getBlockData c.height c.round with
    | none => rfl
    | some data =>
        dsimp only
        by_cases hempty : data = []
        · rw [if_neg fun h => h.1 hempty, hempty]
          rfl
        · rw [if_pos ⟨hempty, hrpc⟩]
          simp [spawns, decidedBlocks, hempty]
  have hsettle : spawns (s.settleEffects c) = decidedBlocks (s.settleEffects c) := by
    rw [State.settleEffects, spawns_append, decidedBlocks_append, hdata]
    rfl
  exact hsettle

/-- On a node that serves RPC, a task is spawned for every decided block that is not
empty, and for nothing else. -/
theorem spawns_handle (hrpc : s.rpcServer = true) (msg : AppMsg) :
    spawns (handle msg s).effects = decidedBlocks (handle msg s).effects := by
  rcases handle_cases s msg with ⟨p, data, hover⟩ | ⟨c, rfl⟩ | hquiet
  · obtain ⟨reply, msgs, -, heffects⟩ := hover.handle_effects
    have hpublish : spawns (msgs.map .publish) = [] := by
      rw [spawns, List.filterMap_map]
      exact List.filterMap_none _
    have hspawns : spawns (.reply reply :: msgs.map .publish) = [] := hpublish
    rw [heffects, spawns_append, hspawns, decidedBlocks, writes_append, writes_map_write,
      writes_reply_cons, writes_map_publish]
    rfl
  · obtain ⟨tail, htail, heffects⟩ := handle_decided_effects (s := s) c
    have hreply : spawns tail = decidedBlocks tail := by
      rcases htail with rfl | ⟨h, vs, rfl⟩ <;> rfl
    have hcommit : spawns (State.commit c s).effects =
        decidedBlocks (State.commit c s).effects := by
      rcases State.commit_cases s c with ⟨hnone, -⟩ | ⟨p, -, -, hrun⟩
      · rw [hnone]
        rfl
      · rw [hrun, Action.after_effects, State.nextHeight_effects, List.append_nil]
        exact spawns_commitEffects hrpc c p
    rw [heffects, spawns_append, decidedBlocks_append, hreply, hcommit]
  · rcases hquiet with heffects | ⟨r, -, heffects⟩
    · rw [heffects]
      rfl
    · rw [heffects]
      rfl

end Spawning

namespace Phase

variable [Executor]

/-- The task has nothing left to do. -/
def Finished : Phase → Prop
  | appended => True
  | failed => True
  | _ => False

instance : DecidablePred Finished
  | appended | failed => isTrue trivial
  | spawned | loaded _ | executed _ _ _ => isFalse id

/-- The task has read the state, and has not failed since. -/
def Started : Phase → Prop
  | loaded _ => True
  | executed _ _ _ => True
  | appended => True
  | _ => False

/-- The state that a task works on. -/
def base : Phase → Option Executor.ChainState
  | loaded state => some state
  | executed state _ _ => some state
  | _ => none

def isAppended : Phase → Bool
  | appended => true
  | _ => false

variable {phase : Phase}

theorem Finished.eq (h : phase.Finished) : phase = .appended ∨ phase = .failed := by
  cases phase with
  | appended => exact Or.inl rfl
  | failed => exact Or.inr rfl
  | _ => exact h.elim

theorem eq_appended (h : phase.isAppended = true) : phase = .appended := by
  cases phase with
  | appended => rfl
  | _ => exact absurd h Bool.false_ne_true

theorem isAppended_of_not_finished (h : ¬ phase.Finished) : phase.isAppended = false := by
  rw [Bool.eq_false_iff]
  intro happended
  rw [eq_appended happended] at h
  exact h trivial

theorem started_of_base {state : Executor.ChainState} (h : phase.base = some state) :
    phase.Started ∧ ¬ phase.Finished := by
  cases phase with
  | loaded state => exact ⟨trivial, id⟩
  | executed state block result => exact ⟨trivial, id⟩
  | _ => exact absurd h (by simp [base])

end Phase

namespace Execution

variable [Executor]

/-- A task moves on. -/
def setPhase (e : Execution) (k : Nat) (task : Task) (phase : Phase) : Execution :=
  { e with tasks := e.tasks.set k { task with phase := phase } }

/-- The task reads the latest state. -/
def load (e : Execution) (k : Nat) (task : Task) : Option Execution :=
  match task.phase with
  | .spawned => some (e.setPhase k task (.loaded e.database))
  | _ => none

/-- The task executes its block on the state it has read. -/
def execute (e : Execution) (k : Nat) (task : Task) : Option Execution :=
  match task.phase with
  | .loaded state =>
      match executeBlock state task.data with
      | some (block, result) => some (e.setPhase k task (.executed state block result))
      | none => some (e.setPhase k task .failed)
  | _ => none

/-- The task appends its block to the database as it is now. -/
def append (e : Execution) (k : Nat) (task : Task) : Option Execution :=
  match task.phase with
  | .executed state block result =>
      match Executor.append e.database block result with
      | some database =>
          some { e.setPhase k task .appended with
            database := database
            blocks := e.blocks ++ [⟨task.height, task.data, state, database⟩] }
      | none => some (e.setPhase k task .failed)
  | _ => none

/-- The task fails, as it may at any time before its end. -/
def fail (e : Execution) (k : Nat) (task : Task) : Option Execution :=
  match task.phase with
  | .appended => none
  | .failed => none
  | _ => some (e.setPhase k task .failed)

section Step

variable [Crypto] [Prost] [Payload]

/-- The execution after a message to the node. -/
def afterHandle (e : Execution) (msg : AppMsg) : Execution :=
  let o := MalakethTurbo.handle msg e.node
  { e with
    node := o.state
    tasks := e.tasks ++ (spawns o.effects).map fun x => ⟨x.1, x.2, .spawned⟩
    decided := e.decided ++ decidedBlocks o.effects }

/-- One step, of the node or of a task. -/
def step (e : Execution) : Move → Option Execution
  | .handle msg => some (e.afterHandle msg)
  | .load k => e.tasks[k]?.bind (e.load k)
  | .execute k => e.tasks[k]?.bind (e.execute k)
  | .append k => e.tasks[k]?.bind (e.append k)
  | .fail k => e.tasks[k]?.bind (e.fail k)

end Step

end Execution

/-- The executions of a node that serves RPC, from any state of the node and of the
database. -/
def execution [Executor] [Crypto] [Prost] [Payload] : System Execution Move where
  init e := e.node.rpcServer = true ∧ e.tasks = [] ∧ e.database = e.first ∧ e.decided = [] ∧
    e.blocks = []
  step e move e' := e.step move = some e'

/-! ## What a step can do -/

namespace Execution

variable [Executor] {e e' : Execution} {move : Move}

/-- How the task with a number gets on, short of appending its block. -/
inductive Advance (e : Execution) (k : Nat) (task : Task) : Move → Phase → Prop where
  | load (h : task.phase = .spawned) : Advance e k task (.load k) (.loaded e.database)
  | execute {state : Executor.ChainState} {block : Executor.Block} {result : Executor.Result}
      (h : task.phase = .loaded state)
      (hrun : executeBlock state task.data = some (block, result)) :
      Advance e k task (.execute k) (.executed state block result)
  | fail {move : Move} (h : ¬ task.phase.Finished) : Advance e k task move .failed

/-- A block is appended. -/
def Appends (e : Execution) (task : Task) (block : Appended) : Prop :=
  ∃ b result, task.phase = .executed block.base b result ∧
    Executor.append e.database b result = some block.after ∧
    block.height = task.height ∧ block.data = task.data

theorem load_eq_some {k : Nat} {task : Task} (h : e.load k task = some e') :
    ∃ phase, Advance e k task (.load k) phase ∧ e' = e.setPhase k task phase := by
  unfold load at h
  split at h
  · exact ⟨_, .load ‹_›, (Option.some.inj h).symm⟩
  · exact absurd h (by simp)

theorem execute_eq_some {k : Nat} {task : Task} (h : e.execute k task = some e') :
    ∃ phase, Advance e k task (.execute k) phase ∧ e' = e.setPhase k task phase := by
  unfold execute at h
  split at h
  · rename_i state hphase
    split at h
    · exact ⟨_, .execute hphase ‹_›, (Option.some.inj h).symm⟩
    · exact ⟨_, .fail (by rw [hphase]; exact id), (Option.some.inj h).symm⟩
  · exact absurd h (by simp)

theorem fail_eq_some {k : Nat} {task : Task} (h : e.fail k task = some e') :
    ∃ phase, Advance e k task (.fail k) phase ∧ e' = e.setPhase k task phase := by
  unfold fail at h
  split at h
  · exact absurd h (by simp)
  · exact absurd h (by simp)
  · rename_i happended hfailed
    exact ⟨_, .fail fun hfinished => hfinished.eq.elim happended hfailed,
      (Option.some.inj h).symm⟩

theorem append_eq_some {k : Nat} {task : Task} (h : e.append k task = some e') :
    (∃ phase, Advance e k task (.append k) phase ∧ e' = e.setPhase k task phase) ∨
      ∃ block, e.Appends task block ∧ e' = { e.setPhase k task .appended with
        database := block.after
        blocks := e.blocks ++ [block] } := by
  unfold append at h
  split at h
  · rename_i state b result hphase
    split at h
    · rename_i database happend
      exact Or.inr ⟨⟨task.height, task.data, state, database⟩,
        ⟨b, result, hphase, happend, rfl, rfl⟩, (Option.some.inj h).symm⟩
    · exact Or.inl ⟨_, .fail (by rw [hphase]; exact id), (Option.some.inj h).symm⟩
  · exact absurd h (by simp)

/-- The task between others takes a step: it gets on, or its block is appended. -/
def Moves (e : Execution) (move : Move) (before : List Task) (task : Task) (after : List Task)
    (e' : Execution) : Prop :=
  (∃ phase, Advance e before.length task move phase ∧
      e' = { e with tasks := before ++ { task with phase := phase } :: after }) ∨
    ∃ block, e.Appends task block ∧ e' = { e with
      tasks := before ++ { task with phase := .appended } :: after
      database := block.after
      blocks := e.blocks ++ [block] }

/-- What a task does to the entry with its number, it does in its place. -/
theorem exists_moves {k : Nat} {task : Task} (hk : e.tasks[k]? = some task)
    (h : (∃ phase, Advance e k task move phase ∧ e' = e.setPhase k task phase) ∨
      ∃ block, e.Appends task block ∧ e' = { e.setPhase k task .appended with
        database := block.after
        blocks := e.blocks ++ [block] }) :
    ∃ before task after, e.tasks = before ++ task :: after ∧
      e.Moves move before task after e' := by
  obtain ⟨before, after, htasks, rfl, hset⟩ := exists_split hk
  unfold setPhase at h
  simp only [hset] at h
  exact ⟨before, task, after, htasks, h⟩

/-- What is known of a task that gets on. -/
theorem Advance.spec {k : Nat} {task : Task} {phase : Phase} (h : Advance e k task move phase) :
    task.phase.isAppended = false ∧ phase.isAppended = false ∧
      (∀ state, phase.base = some state →
        state = e.database ∨ task.phase.base = some state) ∧
      ∀ state b result, phase = .executed state b result →
        executeBlock state task.data = some (b, result) := by
  cases h with
  | load h =>
      rw [h]
      exact ⟨rfl, rfl, fun state hstate => Or.inl (Option.some.inj hstate).symm,
        fun _ _ _ h => absurd h (by simp)⟩
  | execute h hrun =>
      rw [h]
      refine ⟨rfl, rfl, fun state hstate => Or.inr hstate, fun state b result heq => ?_⟩
      obtain ⟨rfl, rfl, rfl⟩ := Phase.executed.inj heq
      exact hrun
  | fail h =>
      exact ⟨Phase.isAppended_of_not_finished h, rfl, fun _ h => absurd h (by simp [Phase.base]),
        fun _ _ _ h => absurd h (by simp)⟩

/-! ## Every interleaving -/

/-- The states the database has had. -/
def states (e : Execution) : List Executor.ChainState := e.first :: e.blocks.map Appended.after

/-- The tasks whose block has been appended. -/
def done (tasks : List Task) : List Task := tasks.filter fun task => task.phase.isAppended

/-- What holds at every moment, however the tasks take turns. -/
structure Consistent (e : Execution) : Prop where
  serves : e.node.rpcServer = true
  decided : e.tasks.map Task.block = e.decided
  appended : (e.blocks.map Appended.block).Perm ((done e.tasks).map Task.block)
  database : e.database ∈ e.states
  read : ∀ task ∈ e.tasks, ∀ state, task.phase.base = some state → state ∈ e.states
  executed : ∀ task ∈ e.tasks, ∀ state b result, task.phase = .executed state b result →
    executeBlock state task.data = some (b, result)
  blocks : ∀ b ∈ e.blocks, b.base ∈ e.states ∧ ∃ r, executeBlock b.base b.data = some r

/-- A task whose block is not in the database is not counted. -/
theorem done_of_not {before after : List Task} {task : Task}
    (h : task.phase.isAppended = false) :
    done (before ++ task :: after) = done before ++ done after := by
  simp only [done, List.filter_append, List.filter_cons, h, Bool.false_eq_true, if_false]

theorem done_replace {before after : List Task} {task task' : Task}
    (h : task.phase.isAppended = false) (h' : task'.phase.isAppended = false) :
    done (before ++ task' :: after) = done (before ++ task :: after) := by
  rw [done_of_not h, done_of_not h']

theorem done_append {before after : List Task} {task : Task} :
    done (before ++ { task with phase := .appended } :: after) =
      done before ++ { task with phase := .appended } :: done after := by
  simp only [done, List.filter_append, List.filter_cons, Phase.isAppended, if_true]

/-- A block that is appended joins the states the database has had. -/
theorem mem_states_append {block : Appended} {state : Executor.ChainState}
    (h : state ∈ e.states) : state ∈ e.first :: (e.blocks ++ [block]).map Appended.after := by
  rw [List.map_append]
  rcases List.mem_cons.mp h with rfl | h
  · exact List.mem_cons_self
  · exact List.mem_cons_of_mem _ (List.mem_append_left _ h)

theorem Consistent.advance (h : e.Consistent) {before after : List Task} {task : Task}
    {phase : Phase} (htasks : e.tasks = before ++ task :: after)
    (hadvance : Advance e before.length task move phase) :
    Consistent { e with tasks := before ++ { task with phase := phase } :: after } := by
  obtain ⟨hold, hnew, hbase, hexecuted⟩ := hadvance.spec
  have hmem : task ∈ e.tasks := mem_of_split htasks
  refine ⟨h.serves, ?_, ?_, h.database, fun t ht state hstate => ?_,
    fun t ht state b result hphase => ?_, h.blocks⟩
  · rw [← h.decided, htasks, List.map_append, List.map_append]
    rfl
  · have hdone := h.appended
    have hsame : done (before ++ { task with phase := phase } :: after) =
        done (before ++ task :: after) := done_replace hold hnew
    rw [htasks, ← hsame] at hdone
    exact hdone
  · rcases mem_replace ht with rfl | ht
    · rcases hbase state hstate with rfl | hstate
      · exact h.database
      · exact h.read task hmem state hstate
    · exact h.read t (htasks ▸ ht) state hstate
  · rcases mem_replace ht with rfl | ht
    · exact hexecuted state b result hphase
    · exact h.executed t (htasks ▸ ht) state b result hphase

theorem Consistent.append (h : e.Consistent) {before after : List Task} {task : Task}
    {block : Appended} (htasks : e.tasks = before ++ task :: after)
    (happends : e.Appends task block) :
    Consistent { e with
      tasks := before ++ { task with phase := .appended } :: after
      database := block.after
      blocks := e.blocks ++ [block] } := by
  obtain ⟨b, result, hphase, -, hheight, hdata⟩ := happends
  have hmem : task ∈ e.tasks := mem_of_split htasks
  refine ⟨h.serves, ?_, ?_, ?_, fun t ht state hstate => ?_,
    fun t ht state b result hphase => ?_, fun b' hb' => ?_⟩
  · rw [← h.decided, htasks, List.map_append, List.map_append]
    rfl
  · have hold := h.appended
    have hblock : block.block = task.block := Prod.ext hheight hdata
    rw [htasks, done_of_not (by rw [hphase]; rfl), List.map_append] at hold
    show ((e.blocks ++ [block]).map Appended.block).Perm ((done (before ++ _ :: after)).map _)
    rw [done_append, List.map_append, List.map_append]
    refine (hold.append_right _).trans ?_
    rw [List.append_assoc, List.map_singleton, hblock]
    exact (List.perm_append_singleton _ _).append_left _
  · show block.after ∈ e.first :: (e.blocks ++ [block]).map Appended.after
    rw [List.map_append]
    exact List.mem_cons_of_mem _ (List.mem_append_right _ List.mem_cons_self)
  · rcases mem_replace ht with rfl | ht
    · exact absurd hstate (by simp [Phase.base])
    · exact mem_states_append (h.read t (htasks ▸ ht) state hstate)
  · rcases mem_replace ht with rfl | ht
    · exact absurd hphase (by simp)
    · exact h.executed t (htasks ▸ ht) state b result hphase
  · rcases List.mem_append.mp hb' with hb' | hb'
    · exact ⟨mem_states_append (h.blocks b' hb').1, (h.blocks b' hb').2⟩
    · rw [List.mem_singleton.mp hb', hdata]
      have hread := h.read task hmem block.base (by rw [hphase]; rfl)
      exact ⟨mem_states_append hread, ⟨_, h.executed task hmem _ _ _ hphase⟩⟩

/-! ## Tasks that do not overlap -/

/-- A task reads the state only after the tasks before it have finished. -/
def Sequential (e : Execution) : Move → Prop
  | .load k => ∀ task ∈ e.tasks.take k, task.phase.Finished
  | _ => True

instance (e : Execution) : DecidablePred e.Sequential
  | .load k => inferInstanceAs (Decidable (∀ task ∈ e.tasks.take k, task.phase.Finished))
  | .handle _ | .execute _ | .append _ | .fail _ => isTrue trivial

/-- A block takes the database from one state to another. -/
def Takes (state : Executor.ChainState) (data : Bytes) (after : Executor.ChainState) : Prop :=
  ∃ block result, executeBlock state data = some (block, result) ∧
    Executor.append state block result = some after

/-- Each block is executed on the state that the one before it has left. -/
def Chain : Executor.ChainState → List Appended → Executor.ChainState → Prop
  | state, [], last => last = state
  | state, b :: blocks, last =>
      b.base = state ∧ Takes state b.data b.after ∧ Chain b.after blocks last

theorem Chain.concat {first last : Executor.ChainState} {blocks : List Appended} {b : Appended}
    (h : Chain first blocks last) (hbase : b.base = last) (htakes : Takes last b.data b.after) :
    Chain first (blocks ++ [b]) b.after := by
  induction blocks generalizing first with
  | nil =>
      obtain rfl : last = first := h
      exact ⟨hbase, htakes, rfl⟩
  | cons b' blocks ih => exact ⟨h.1, h.2.1, ih h.2.2⟩

/-- A task has started only if those before it have finished. -/
def AfterOthers (task task' : Task) : Prop := task'.phase.Started → task.phase.Finished

/-- What holds at every moment if the tasks do not overlap. -/
structure InOrder (e : Execution) : Prop where
  order : e.tasks.Pairwise AfterOthers
  current : ∀ task ∈ e.tasks, ∀ state, task.phase.base = some state → state = e.database
  appended : e.blocks.map Appended.block = (done e.tasks).map Task.block
  chain : Chain e.first e.blocks e.database

theorem InOrder.advance (h : e.InOrder) {before after : List Task} {task : Task} {phase : Phase}
    (htasks : e.tasks = before ++ task :: after)
    (hadvance : Advance e before.length task move phase) (hseq : e.Sequential move) :
    InOrder { e with tasks := before ++ { task with phase := phase } :: after } := by
  obtain ⟨hold, hnew, hbase, -⟩ := hadvance.spec
  have horder := h.order
  rw [htasks] at horder
  have hmem : task ∈ e.tasks := mem_of_split htasks
  refine ⟨?_, fun t ht state hstate => ?_, ?_, h.chain⟩
  · cases hadvance with
    | load hspawned =>
        refine pairwise_replace horder (fun t ht _ _ => ?_) fun t ht hrel hstarted => ?_
        · have hguard : ∀ task ∈ e.tasks.take before.length, task.phase.Finished := hseq
          rw [htasks, List.take_left] at hguard
          exact hguard t ht
        · have hfinished := hrel hstarted
          rw [hspawned] at hfinished
          exact hfinished.elim
    | execute hloaded hrun =>
        refine pairwise_replace horder (fun t ht hrel _ => ?_) fun t ht hrel hstarted => ?_
        · exact hrel (by rw [hloaded]; trivial)
        · have hfinished := hrel hstarted
          rw [hloaded] at hfinished
          exact hfinished.elim
    | fail hrunning =>
        exact pairwise_replace horder (fun t ht _ hstarted => hstarted.elim) fun t ht _ _ => trivial
  · rcases mem_replace ht with rfl | ht
    · rcases hbase state hstate with rfl | hstate
      · rfl
      · exact h.current task hmem state hstate
    · exact h.current t (htasks ▸ ht) state hstate
  · have hsame : done (before ++ { task with phase := phase } :: after) =
        done (before ++ task :: after) := done_replace hold hnew
    show _ = (done (before ++ _ :: after)).map _
    rw [hsame, ← htasks]
    exact h.appended

theorem InOrder.append (h : e.InOrder) (hconsistent : e.Consistent) {before after : List Task}
    {task : Task} {block : Appended} (htasks : e.tasks = before ++ task :: after)
    (happends : e.Appends task block) :
    InOrder { e with
      tasks := before ++ { task with phase := .appended } :: after
      database := block.after
      blocks := e.blocks ++ [block] } := by
  obtain ⟨b, result, hphase, hafter, hheight, hdata⟩ := happends
  have horder := h.order
  rw [htasks] at horder
  obtain ⟨-, hright, hcross⟩ := List.pairwise_append.mp horder
  have hmem : task ∈ e.tasks := mem_of_split htasks
  have hbase : task.phase.base = some block.base := by rw [hphase]; rfl
  have hstarted := Phase.started_of_base hbase
  have hcurrent : block.base = e.database := h.current task hmem _ hbase
  -- the tasks before this one have finished, those after it have not started
  have hbefore : ∀ t ∈ before, t.phase.Finished := fun t ht =>
    hcross t ht task List.mem_cons_self hstarted.1
  have hlater : ∀ t ∈ after, ¬ t.phase.Started := fun t ht hs =>
    hstarted.2 ((List.pairwise_cons.mp hright).1 t ht hs)
  refine ⟨?_, fun t ht state hstate => ?_, ?_, ?_⟩
  · refine pairwise_replace horder (fun t ht hrel _ => hbefore t ht) fun t ht _ _ => trivial
  · exfalso
    rcases List.mem_append.mp ht with ht | ht
    · exact (Phase.started_of_base hstate).2 (hbefore t ht)
    · rcases List.mem_cons.mp ht with rfl | ht
      · exact absurd hstate (by simp [Phase.base])
      · exact hlater t ht (Phase.started_of_base hstate).1
  · have hnone : done after = [] := by
      refine List.filter_eq_nil_iff.mpr fun t ht happended => hlater t ht ?_
      rw [Phase.eq_appended happended]
      trivial
    have hdone : done e.tasks = done before := by
      rw [htasks, done_of_not (by rw [hphase]; rfl), hnone, List.append_nil]
    have hblock : block.block = task.block := Prod.ext hheight hdata
    show (e.blocks ++ [block]).map _ = (done (before ++ _ :: after)).map _
    rw [done_append, hnone, List.map_append, List.map_append, h.appended, hdone,
      List.map_singleton, hblock]
    rfl
  · refine h.chain.concat hcurrent ⟨b, result, ?_, hafter⟩
    rw [← hcurrent, hdata]
    exact hconsistent.executed task hmem _ _ _ hphase

/-- Tasks that have not failed and follow no unfinished one are done up to a point. -/
theorem done_isPrefix (hconsistent : e.Consistent) (h : e.InOrder)
    (hnone : ∀ task ∈ e.tasks, task.phase ≠ .failed) :
    e.blocks.map Appended.block <+: e.decided := by
  have hbeginning : done e.tasks <+: e.tasks := by
    refine filter_isPrefix (h.order.imp_of_mem fun {t t'} ht _ hafter happended => ?_)
    have hfinished : t.phase.Finished := by
      refine hafter ?_
      rw [Phase.eq_appended happended]
      trivial
    rw [hfinished.eq.resolve_right (hnone t ht)]
    rfl
  rw [h.appended, ← hconsistent.decided]
  exact hbeginning.map Task.block

variable [Crypto] [Prost] [Payload]

/-- **A step is a message to the node or the step of a task.** -/
theorem step_cases (h : e.step move = some e') :
    (∃ msg, e' = e.afterHandle msg) ∨
      ∃ before task after, e.tasks = before ++ task :: after ∧
        e.Moves move before task after e' := by
  cases move with
  | handle msg => exact Or.inl ⟨msg, (Option.some.inj h).symm⟩
  | load k =>
      obtain ⟨task, hk, hload⟩ := Option.bind_eq_some_iff.mp h
      exact Or.inr (exists_moves hk (Or.inl (load_eq_some hload)))
  | execute k =>
      obtain ⟨task, hk, hexecute⟩ := Option.bind_eq_some_iff.mp h
      exact Or.inr (exists_moves hk (Or.inl (execute_eq_some hexecute)))
  | append k =>
      obtain ⟨task, hk, happend⟩ := Option.bind_eq_some_iff.mp h
      exact Or.inr (exists_moves hk (append_eq_some happend))
  | fail k =>
      obtain ⟨task, hk, hfail⟩ := Option.bind_eq_some_iff.mp h
      exact Or.inr (exists_moves hk (Or.inl (fail_eq_some hfail)))

/-- The tasks of a message have not started. -/
theorem mem_afterHandle {msg : AppMsg} {task : Task} (h : task ∈ (e.afterHandle msg).tasks) :
    task ∈ e.tasks ∨ task.phase = .spawned := by
  rcases List.mem_append.mp h with h | h
  · exact Or.inl h
  · obtain ⟨x, -, rfl⟩ := List.mem_map.mp h
    exact Or.inr rfl

theorem done_afterHandle (e : Execution) (msg : AppMsg) :
    done (e.afterHandle msg).tasks = done e.tasks := by
  have hnone : done ((spawns (handle msg e.node).effects).map fun x =>
      (⟨x.1, x.2, .spawned⟩ : Task)) = [] := by
    refine List.filter_eq_nil_iff.mpr ?_
    intro task htask
    obtain ⟨x, -, rfl⟩ := List.mem_map.mp htask
    exact Bool.false_ne_true
  show done (e.tasks ++ _) = _
  rw [done, List.filter_append]
  show done e.tasks ++ done _ = _
  rw [hnone, List.append_nil]

theorem Consistent.handle (h : e.Consistent) (msg : AppMsg) : (e.afterHandle msg).Consistent where
  serves := (Framed.handle msg e.node).rpcServer.trans h.serves
  decided := by
    show (e.tasks ++ _).map Task.block = e.decided ++ _
    rw [List.map_append, h.decided, List.map_map, ← spawns_handle h.serves msg]
    exact congrArg (e.decided ++ ·) (List.map_id _)
  appended := by
    rw [done_afterHandle]
    exact h.appended
  database := h.database
  read task htask state hstate := by
    rcases mem_afterHandle htask with htask | hspawned
    · exact h.read task htask state hstate
    · rw [hspawned] at hstate
      exact absurd hstate (by simp [Phase.base])
  executed task htask state b result hphase := by
    rcases mem_afterHandle htask with htask | hspawned
    · exact h.executed task htask state b result hphase
    · rw [hspawned] at hphase
      exact absurd hphase (by simp)
  blocks := h.blocks

theorem Consistent.step (h : e.Consistent) (hstep : e.step move = some e') : e'.Consistent := by
  rcases step_cases hstep with ⟨msg, rfl⟩ | ⟨before, task, after, htasks, hmoves⟩
  · exact h.handle msg
  · rcases hmoves with ⟨phase, hadvance, rfl⟩ | ⟨block, happends, rfl⟩
    · exact h.advance htasks hadvance
    · exact h.append htasks happends

/-- **Whatever the interleaving**, the blocks in the database are the blocks of the tasks
that have got there, each once, executed on states the database has had. -/
theorem consistent_of_run {steps : List (Execution × Move)} (h : Run execution steps e) :
    e.Consistent := by
  refine h.invariant ?_ ?_
  · rintro e ⟨hserves, htasks, hdatabase, hdecided, hblocks⟩
    refine ⟨hserves, ?_, ?_, ?_, fun task ht => ?_, fun task ht => ?_, fun b hb => ?_⟩
    · rw [htasks, hdecided]
      rfl
    · rw [htasks, hblocks]
      exact List.Perm.refl _
    · rw [hdatabase]
      exact List.mem_cons_self
    · rw [htasks] at ht
      exact absurd ht List.not_mem_nil
    · rw [htasks] at ht
      exact absurd ht List.not_mem_nil
    · rw [hblocks] at hb
      exact absurd hb List.not_mem_nil
  · exact fun e move e' hprev hstep => hprev.step hstep

/-! ## Whole runs -/

theorem InOrder.handle (h : e.InOrder) (msg : AppMsg) : (e.afterHandle msg).InOrder where
  order := by
    refine List.pairwise_append.mpr ⟨h.order, ?_, fun t _ t' ht' hstarted => ?_⟩
    · exact List.pairwise_map.mpr (List.pairwise_of_forall fun _ _ hstarted => hstarted.elim)
    · obtain ⟨x, -, rfl⟩ := List.mem_map.mp ht'
      exact hstarted.elim
  current task htask state hstate := by
    rcases mem_afterHandle htask with htask | hspawned
    · exact h.current task htask state hstate
    · rw [hspawned] at hstate
      exact absurd hstate (by simp [Phase.base])
  appended := by
    rw [done_afterHandle]
    exact h.appended
  chain := h.chain

/-- The blocks come in order if the tasks do not overlap. -/
theorem inOrder_of_run {steps : List (Execution × Move)} (h : Run execution steps e)
    (hseq : ∀ x ∈ steps, x.1.Sequential x.2) : e.InOrder := by
  have hboth : e.Consistent ∧ e.InOrder := by
    refine h.invariant_along (P := fun e => e.Consistent ∧ e.InOrder) ?_ ?_ hseq
    · intro e hinit
      refine ⟨consistent_of_run (.start hinit), ?_⟩
      obtain ⟨-, htasks, hdatabase, -, hblocks⟩ := hinit
      refine ⟨?_, fun task ht => ?_, ?_, ?_⟩
      · rw [htasks]
        exact List.Pairwise.nil
      · rw [htasks] at ht
        exact absurd ht List.not_mem_nil
      · rw [htasks, hblocks]
        rfl
      · rw [hblocks]
        exact hdatabase
    · rintro e move e' ⟨hconsistent, hprev⟩ hturn hstep
      refine ⟨hconsistent.step hstep, ?_⟩
      rcases step_cases hstep with ⟨msg, rfl⟩ | ⟨before, task, after, htasks, hmoves⟩
      · exact hprev.handle msg
      · rcases hmoves with ⟨phase, hadvance, rfl⟩ | ⟨block, happends, rfl⟩
        · exact hprev.advance htasks hadvance hturn
        · exact hprev.append hconsistent htasks happends
  exact hboth.2

/-- **What ends up in the database.**  However the tasks take turns and whichever of them
fail, the blocks appended are decided blocks that are not empty, for each commit at most
one, and each was executed on a state that the database has had.  If every task reads the
state after the tasks of the commits before it have finished, the blocks come in the order
of the commits, each executed on the state that the one before it has left, and only the
blocks of tasks that have failed are missing in between. -/
theorem executed_blocks {steps : List (Execution × Move)} (h : Run execution steps e) :
    ((e.blocks.map Appended.block).Subperm e.decided ∧
      ∀ b ∈ e.blocks, b.base ∈ e.states ∧ ∃ r, executeBlock b.base b.data = some r) ∧
    ((∀ x ∈ steps, x.1.Sequential x.2) →
      Chain e.first e.blocks e.database ∧
      e.tasks.map Task.block = e.decided ∧
      e.blocks.map Appended.block = (done e.tasks).map Task.block ∧
      e.tasks.Pairwise AfterOthers ∧
      ((∀ task ∈ e.tasks, task.phase ≠ .failed) →
        e.blocks.map Appended.block <+: e.decided) ∧
      ((e.decided.map Prod.fst).Pairwise (· < ·) →
        (e.blocks.map Appended.height).Pairwise (· < ·))) := by
  have hconsistent := consistent_of_run h
  have hsublist : ((done e.tasks).map Task.block).Sublist e.decided := by
    rw [← hconsistent.decided]
    exact List.filter_sublist.map _
  refine ⟨⟨?_, hconsistent.blocks⟩, fun hseq => ?_⟩
  · exact ⟨_, hconsistent.appended.symm, hsublist⟩
  · have horder := inOrder_of_run h hseq
    refine ⟨horder.chain, hconsistent.decided, horder.appended, horder.order, fun hnone =>
      done_isPrefix hconsistent horder hnone, fun hheights => ?_⟩
    have hmap : e.blocks.map Appended.height = (e.blocks.map Appended.block).map Prod.fst := by
      rw [List.map_map]
      rfl
    rw [hmap, horder.appended]
    exact hheights.sublist (hsublist.map Prod.fst)

/-! ## Runs to look at -/

/-- The moves one after the other, each of them allowed. -/
def play (allowed : Execution → Move → Bool) (e : Execution) (moves : List Move) :
    Option Execution :=
  moves.foldlM (fun e move => if allowed e move then e.step move else none) e

/-- What is played is a run. -/
theorem exists_run_of_play {allowed : Execution → Move → Bool} {moves : List Move}
    {steps : List (Execution × Move)} (h : Run execution steps e)
    (hplay : e.play allowed moves = some e') :
    ∃ steps', Run execution (steps ++ steps') e' ∧
      ∀ x ∈ steps', allowed x.1 x.2 = true := by
  induction moves generalizing e steps with
  | nil =>
      obtain rfl : e = e' := Option.some.inj hplay
      refine ⟨[], ?_, fun x hx => absurd hx List.not_mem_nil⟩
      rw [List.append_nil]
      exact h
  | cons move moves ih =>
      obtain ⟨mid, hmove, hrest⟩ := Option.bind_eq_some_iff.mp hplay
      obtain ⟨hallowed, hstep⟩ := Option.ite_none_right_eq_some.mp hmove
      obtain ⟨steps', hrun, hall⟩ := ih (h.next hstep) hrest
      refine ⟨(e, move) :: steps', ?_, fun x hx => ?_⟩
      · rw [List.append_assoc] at hrun
        exact hrun
      · rcases List.mem_cons.mp hx with rfl | hx
        · exact hallowed
        · exact hall x hx

end Execution

section Demo

/-- An executor that keeps the blocks it has executed, the last one first, and refuses one
block. -/
@[reducible] def demoExecutor : Executor where
  ChainState := List Bytes
  Block := Bytes
  Result := Unit
  parse data := some data
  transactions _ := 0
  recover block := some block
  execute _ block := if block = [13] then none else some ()
  receipts _ := []
  append state block _ := some (block :: state)

attribute [local instance] demoExecutor demoCrypto Prost.reference demoPayload

/-- A demo node with blocks to propose, and a database without blocks. -/
def demoExecution (blocks : Bytes) : Execution where
  node := demoState 1 blocks
  tasks := []
  database := ([] : List Bytes)
  first := ([] : List Bytes)
  decided := []
  blocks := []

theorem demoExecution_run (blocks : Bytes) : Run execution [] (demoExecution blocks) :=
  .start ⟨rfl, rfl, rfl, rfl, rfl⟩

/-- The node proposes a block at a height, and the block is decided. -/
def demoCommit (height : UInt64) (block : UInt8) : List Move :=
  [.handle (.getValue ⟨height⟩ (.some 0)),
    .handle (.decided (demoCertificateAt ⟨height⟩ block))]

/-- A task from its start to its end. -/
def demoTask (k : Nat) : List Move := [.load k, .execute k, .append k]

/-- Each task has its turn after the one before it. -/
def demoInTurn (blocks : Bytes) (moves : List Move) : Option Execution :=
  (demoExecution blocks).play (fun e move => decide (e.Sequential move)) moves

/-- Two blocks, each executed before the next commit. -/
def demoMoves : List Move := demoCommit 1 12 ++ demoTask 0 ++ demoCommit 2 14 ++ demoTask 1

theorem executed_blocks_demo :
    ∃ e, demoInTurn [12, 14] demoMoves = some e ∧
      e.blocks.map Appended.block = [(⟨1⟩, [12]), (⟨2⟩, [14])] ∧
      Execution.Chain e.first e.blocks e.database ∧
      e.blocks.map Appended.block <+: e.decided := by
  have hplayed : (demoInTurn [12, 14] demoMoves).map
      (fun e => (e.blocks.map Appended.block, e.tasks.all fun task => task.phase.isAppended)) =
      some ([(⟨1⟩, [12]), (⟨2⟩, [14])], true) := by decide +kernel
  obtain ⟨e, he, hfacts⟩ := Option.map_eq_some_iff.mp hplayed
  obtain ⟨hblocks, hdone⟩ := Prod.mk.inj hfacts
  obtain ⟨steps, hrun, hturns⟩ := Execution.exists_run_of_play (demoExecution_run _) he
  have hnone : ∀ task ∈ e.tasks, task.phase ≠ .failed := by
    intro task htask hfailed
    have happended := List.all_eq_true.mp hdone task htask
    rw [hfailed] at happended
    exact Bool.false_ne_true happended
  obtain ⟨hchain, -, -, -, hbeginning, -⟩ := (Execution.executed_blocks hrun).2 fun x hx =>
    of_decide_eq_true (hturns x hx)
  exact ⟨e, he, hblocks, hchain, hbeginning hnone⟩

/-- The first task fails; the second one has its turn and appends its block. -/
def demoFailure : List Move :=
  demoCommit 1 13 ++ [.load 0, .execute 0] ++ demoCommit 2 14 ++ demoTask 1

/-- Both tasks read the state before either appends its block, the second one first. -/
def demoOverlap : List Move :=
  demoCommit 1 12 ++ demoCommit 2 14 ++ [.load 0] ++ demoTask 1 ++ [.execute 0, .append 0]

/-- The states that the blocks in the database were executed on and have left. -/
def demoStates (e : Execution) : List (List Bytes × List Bytes) :=
  e.blocks.map fun b => (b.base, b.after)

/-- A failed task leaves its block out, and tasks that overlap append theirs in any order
and on a state that is not the latest. -/
theorem executed_blocks_not_in_order :
    (∃ steps e, Run execution steps e ∧ (∀ x ∈ steps, x.1.Sequential x.2) ∧
      ¬ e.blocks.map Appended.block <+: e.decided) ∧
    ∃ steps e, Run execution steps e ∧ (∀ task ∈ e.tasks, task.phase.isAppended = true) ∧
      ¬ e.blocks.map Appended.block <+: e.decided ∧
      ¬ Execution.Chain e.first e.blocks e.database := by
  constructor
  · have hplayed : (demoInTurn [13, 14] demoFailure).map
        (fun e => (e.blocks.map Appended.block, e.decided)) =
        some ([(⟨2⟩, [14])], [(⟨1⟩, [13]), (⟨2⟩, [14])]) := by decide +kernel
    obtain ⟨e, he, hfacts⟩ := Option.map_eq_some_iff.mp hplayed
    obtain ⟨hblocks, hdecided⟩ := Prod.mk.inj hfacts
    obtain ⟨steps, hrun, hturns⟩ := Execution.exists_run_of_play (demoExecution_run _) he
    refine ⟨_, e, hrun, fun x hx => of_decide_eq_true (hturns x hx), ?_⟩
    rw [hblocks, hdecided]
    decide
  · have hplayed : ((demoExecution [12, 14]).play (fun _ _ => true) demoOverlap).map
        (fun e => (e.blocks.map Appended.block, e.decided)) =
        some ([(⟨2⟩, [14]), (⟨1⟩, [12])], [(⟨1⟩, [12]), (⟨2⟩, [14])]) := by decide +kernel
    have hended : ((demoExecution [12, 14]).play (fun _ _ => true) demoOverlap).map
        (fun e => (e.tasks.all fun task => task.phase.isAppended, demoStates e)) =
        some (true, [([], [[14]]), ([], [[12], [14]])]) := by decide +kernel
    obtain ⟨e, he, hfacts⟩ := Option.map_eq_some_iff.mp hplayed
    obtain ⟨hblocks, hdecided⟩ := Prod.mk.inj hfacts
    rw [he] at hended
    obtain ⟨hdone, hstates⟩ := Prod.mk.inj (Option.some.inj hended)
    obtain ⟨steps, hrun, -⟩ := Execution.exists_run_of_play (demoExecution_run _) he
    refine ⟨_, e, hrun, fun task htask => List.all_eq_true.mp hdone task htask, ?_, ?_⟩
    · rw [hblocks, hdecided]
      decide
    · -- the block appended second was executed on the state before the first one
      intro hchain
      obtain ⟨b, rest, hcons, hb, hrest⟩ := List.map_eq_cons_iff.mp hstates
      obtain ⟨b', rest', rfl, hb', -⟩ := List.map_eq_cons_iff.mp hrest
      rw [hcons] at hchain
      obtain ⟨-, -, hbase, -⟩ := hchain
      have hafter : b.after = [[14]] := congrArg Prod.snd hb
      have hbefore : b'.base = [] := congrArg Prod.fst hb'
      rw [hafter, hbefore] at hbase
      exact absurd hbase (List.cons_ne_nil ([14] : Bytes) []).symm

end Demo

end MalakethTurbo
