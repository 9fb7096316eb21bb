import MalakethTurbo.App.Chain

/-!
# Replicated execution

The nodes of a network, each with its background tasks and the database of its executor.
Messages and tasks take their steps in any order; only the tasks of one node wait for each
other, as far as a statement says so.

A task that ends without failing from outside has done to the database what its block says:
it has executed and appended it, or the executor has refused it and the database is as
before (`stateAfter`).  So the database of a node whose tasks take turns is what its finished
blocks make of the first state, one after the other (`Execution.InTurn`).  The blocks of all
nodes come from one chain, and with it the databases: each is the chain executed up to a
point, the same at the same point (`databases_agree`).
-/

namespace MalakethTurbo

open Wire (Bytes)

/-! ## One node -/

section Turns

variable [Executor]

/-- What a block makes of the database: it is executed and appended, or refused. -/
def stateAfter (state : Executor.ChainState) (data : Bytes) : Executor.ChainState :=
  ((executeBlock state data).bind fun x => Executor.append state x.1 x.2).getD state

/-- What blocks make of the database, one after the other. -/
def stateAfterAll (state : Executor.ChainState) (blocks : List (Height × Bytes)) :
    Executor.ChainState :=
  blocks.foldl (fun state block => stateAfter state block.2) state

variable {state : Executor.ChainState}

theorem stateAfterAll_concat (blocks : List (Height × Bytes)) (block : Height × Bytes) :
    stateAfterAll state (blocks ++ [block]) = stateAfter (stateAfterAll state blocks) block.2 := by
  rw [stateAfterAll, List.foldl_append]
  rfl

namespace Execution

variable {e e' : Execution} {move : Move}

/-- What a task does to its phase and the database when it gets on by itself. -/
inductive GetsOn (e : Execution) (task : Task) : Phase → Executor.ChainState → Prop where
  | load (h : task.phase = .spawned) : GetsOn e task (.loaded e.database) e.database
  | execute {state : Executor.ChainState} {block : Executor.Block} {result : Executor.Result}
      (h : task.phase = .loaded state)
      (hrun : executeBlock state task.data = some (block, result)) :
      GetsOn e task (.executed state block result) e.database
  | refuse {state : Executor.ChainState} (h : task.phase = .loaded state)
      (hrun : executeBlock state task.data = none) : GetsOn e task .failed e.database
  | append {state database : Executor.ChainState} {block : Executor.Block}
      {result : Executor.Result} (h : task.phase = .executed state block result)
      (happend : Executor.append e.database block result = some database) :
      GetsOn e task .appended database
  | reject {state : Executor.ChainState} {block : Executor.Block} {result : Executor.Result}
      (h : task.phase = .executed state block result)
      (happend : Executor.append e.database block result = none) :
      GetsOn e task .failed e.database

theorem load_getsOn {k : Nat} {task : Task} (h : e.load k task = some e') :
    ∃ phase, GetsOn e task phase e'.database ∧
      e'.tasks = e.tasks.set k { task with phase := phase } ∧ e'.first = e.first := by
  unfold load at h
  split at h
  · rename_i hphase
    rw [← Option.some.inj h]
    exact ⟨_, .load hphase, rfl, rfl⟩
  · exact absurd h (by simp)

theorem execute_getsOn {k : Nat} {task : Task} (h : e.execute k task = some e') :
    ∃ phase, GetsOn e task phase e'.database ∧
      e'.tasks = e.tasks.set k { task with phase := phase } ∧ e'.first = e.first := by
  unfold execute at h
  split at h
  · rename_i state hphase
    split at h
    · rename_i block result hrun
      rw [← Option.some.inj h]
      exact ⟨_, .execute hphase hrun, rfl, rfl⟩
    · rename_i hrun
      rw [← Option.some.inj h]
      exact ⟨_, .refuse hphase hrun, rfl, rfl⟩
  · exact absurd h (by simp)

theorem append_getsOn {k : Nat} {task : Task} (h : e.append k task = some e') :
    ∃ phase, GetsOn e task phase e'.database ∧
      e'.tasks = e.tasks.set k { task with phase := phase } ∧ e'.first = e.first := by
  unfold append at h
  split at h
  · rename_i state block result hphase
    split at h
    · rename_i database happend
      rw [← Option.some.inj h]
      exact ⟨_, .append hphase happend, rfl, rfl⟩
    · rename_i happend
      rw [← Option.some.inj h]
      exact ⟨_, .reject hphase happend, rfl, rfl⟩
  · exact absurd h (by simp)

variable [Crypto] [Prost] [Payload]

/-- **A step of a task** that does not fail from outside. -/
theorem step_getsOn (h : e.step move = some e') (hmsg : ∀ msg, move ≠ .handle msg)
    (hfail : ∀ k, move ≠ .fail k) :
    ∃ before task after phase, e.tasks = before ++ task :: after ∧
      GetsOn e task phase e'.database ∧
      e'.tasks = before ++ { task with phase := phase } :: after ∧ e'.first = e.first ∧
      (task.phase = .spawned → move = .load before.length) := by
  -- every other task stays as it is
  have hplace {k : Nat} {task : Task} (hk : e.tasks[k]? = some task)
      (hturn : task.phase = .spawned → move = .load k)
      (hon : ∃ phase, GetsOn e task phase e'.database ∧
        e'.tasks = e.tasks.set k { task with phase := phase } ∧ e'.first = e.first) :
      ∃ before task after phase, e.tasks = before ++ task :: after ∧
        GetsOn e task phase e'.database ∧
        e'.tasks = before ++ { task with phase := phase } :: after ∧ e'.first = e.first ∧
        (task.phase = .spawned → move = .load before.length) := by
    obtain ⟨before, after, htasks, rfl, hset⟩ := exists_split hk
    obtain ⟨phase, hphase, hnext, hfirst⟩ := hon
    exact ⟨before, task, after, phase, htasks, hphase, by rw [hnext, hset], hfirst, hturn⟩
  cases move with
  | handle msg => exact absurd rfl (hmsg msg)
  | fail k => exact absurd rfl (hfail k)
  | load k =>
      obtain ⟨task, hk, hload⟩ := Option.bind_eq_some_iff.mp h
      exact hplace hk (fun _ => rfl) (load_getsOn hload)
  | execute k =>
      obtain ⟨task, hk, hexecute⟩ := Option.bind_eq_some_iff.mp h
      refine hplace hk (fun hspawned => ?_) (execute_getsOn hexecute)
      rw [execute, hspawned] at hexecute
      exact absurd hexecute (by simp)
  | append k =>
      obtain ⟨task, hk, happend⟩ := Option.bind_eq_some_iff.mp h
      refine hplace hk (fun hspawned => ?_) (append_getsOn happend)
      rw [append, hspawned] at happend
      exact absurd happend (by simp)

/-! ## Tasks that take turns -/

omit [Crypto] [Prost] [Payload] in
/-- The tasks that have ended. -/
def finished (e : Execution) : List Task := e.tasks.filter fun task => task.phase.Finished

/-- The tasks begin one after the other, and the database is what the blocks of those that
have ended make of its first state. -/
structure InTurn (e : Execution) : Prop where
  order : e.tasks.Pairwise fun t t' => t'.phase ≠ .spawned → t.phase.Finished
  database : e.database = stateAfterAll e.first (e.finished.map Task.block)

omit [Crypto] [Prost] [Payload] in
/-- The tasks that have ended are the first ones. -/
theorem InTurn.finished_isPrefix (h : e.InTurn) : e.finished <+: e.tasks := by
  refine filter_isPrefix (h.order.imp fun {t t'} hafter hfinished => ?_)
  refine decide_eq_true (hafter fun hspawned => ?_)
  have hended : t'.phase.Finished := of_decide_eq_true hfinished
  rw [hspawned] at hended
  exact hended

omit [Crypto] [Prost] [Payload] in
/-- A task that is not over comes after tasks that are and before tasks that have not begun. -/
theorem InTurn.around (h : e.InTurn) {before after : List Task} {task : Task}
    (htasks : e.tasks = before ++ task :: after) (hrunning : ¬ task.phase.Finished)
    (hturn : task.phase = .spawned → ∀ t ∈ before, t.phase.Finished) :
    (∀ t ∈ before, t.phase.Finished) ∧ ∀ t ∈ after, t.phase = .spawned := by
  have horder := h.order
  rw [htasks] at horder
  obtain ⟨-, hright, hcross⟩ := List.pairwise_append.mp horder
  constructor
  · by_cases hspawned : task.phase = .spawned
    · exact hturn hspawned
    · exact fun t ht => hcross t ht task List.mem_cons_self hspawned
  · intro t ht
    by_contra hbegun
    exact hrunning ((List.pairwise_cons.mp hright).1 t ht hbegun)

omit [Crypto] [Prost] [Payload] in
theorem finished_of_split {before after : List Task} {task : Task}
    (htasks : e.tasks = before ++ task :: after) (hbefore : ∀ t ∈ before, t.phase.Finished)
    (hafter : ∀ t ∈ after, t.phase = .spawned) :
    e.finished = before ++ if task.phase.Finished then [task] else [] := by
  have hended : before.filter (fun t => t.phase.Finished) = before :=
    List.filter_eq_self.mpr fun t ht => decide_eq_true (hbefore t ht)
  have hwaiting : after.filter (fun t => t.phase.Finished) = [] := by
    refine List.filter_eq_nil_iff.mpr fun t ht => ?_
    rw [hafter t ht]
    exact Bool.false_ne_true
  rw [finished, htasks, List.filter_append, List.filter_cons, hended, hwaiting]
  by_cases hphase : task.phase.Finished <;> simp [hphase]

omit [Crypto] [Prost] [Payload] in
/-- **What a task has done when it ends** is what its block makes of the database. -/
theorem GetsOn.database_eq {task : Task} {phase : Phase} {database : Executor.ChainState}
    (h : GetsOn e task phase database)
    (hcurrent : ∀ state, task.phase.base = some state → state = e.database)
    (hexecuted : ∀ state b result, task.phase = .executed state b result →
      executeBlock state task.data = some (b, result)) :
    ¬ task.phase.Finished ∧
      database = if phase.Finished then stateAfter e.database task.data else e.database := by
  cases h with
  | load h =>
      rw [h]
      exact ⟨id, rfl⟩
  | execute h hrun =>
      rw [h]
      exact ⟨id, rfl⟩
  | refuse h hrun =>
      rw [hcurrent _ (congrArg Phase.base h)] at hrun
      rw [h, stateAfter, hrun]
      exact ⟨id, rfl⟩
  | append h happend =>
      have hrun := hexecuted _ _ _ h
      rw [hcurrent _ (congrArg Phase.base h)] at hrun
      rw [h, stateAfter, hrun]
      refine ⟨id, ?_⟩
      show _ = ((Executor.append e.database _ _).getD _)
      rw [happend]
      rfl
  | reject h happend =>
      have hrun := hexecuted _ _ _ h
      rw [hcurrent _ (congrArg Phase.base h)] at hrun
      rw [h, stateAfter, hrun]
      refine ⟨id, ?_⟩
      show _ = ((Executor.append e.database _ _).getD _)
      rw [happend]
      rfl

theorem InTurn.handle (h : e.InTurn) (msg : AppMsg) : (e.afterHandle msg).InTurn := by
  have hspawned : ((spawns (MalakethTurbo.handle msg e.node).effects).map fun x =>
      (⟨x.1, x.2, .spawned⟩ : Task)).filter (fun task => task.phase.Finished) = [] := by
    refine List.filter_eq_nil_iff.mpr fun t ht => ?_
    obtain ⟨x, -, rfl⟩ := List.mem_map.mp ht
    exact Bool.false_ne_true
  have hfinished : (e.afterHandle msg).finished = e.finished := by
    show (e.tasks ++ _).filter _ = _
    rw [List.filter_append, hspawned, List.append_nil]
    rfl
  refine ⟨List.pairwise_append.mpr ⟨h.order, ?_, fun t _ t' ht' hbegun => ?_⟩, ?_⟩
  · exact List.pairwise_map.mpr (List.pairwise_of_forall fun _ _ hbegun => absurd rfl hbegun)
  · obtain ⟨x, -, rfl⟩ := List.mem_map.mp ht'
    exact absurd rfl hbegun
  · rw [hfinished]
    exact h.database

/-- A task that has its turn keeps the order, and what it does when it ends is on top. -/
theorem InTurn.getsOn (h : e.InTurn) (hconsistent : e.Consistent) (hinOrder : e.InOrder)
    (hstep : e.step move = some e') (hturn : e.Sequential move)
    (hmsg : ∀ msg, move ≠ .handle msg) (hfail : ∀ k, move ≠ .fail k) : e'.InTurn := by
  obtain ⟨before, task, after, phase, htasks, hon, hnext, hfirst, hload⟩ :=
    step_getsOn hstep hmsg hfail
  have hmem : task ∈ e.tasks := mem_of_split htasks
  obtain ⟨hrunning, hdatabase⟩ := hon.database_eq (hinOrder.current task hmem)
    (hconsistent.executed task hmem)
  obtain ⟨hbefore, hafter⟩ := h.around htasks hrunning fun hspawned => by
    rw [hload hspawned] at hturn
    have hguard : ∀ t ∈ e.tasks.take before.length, t.phase.Finished := hturn
    rw [htasks, List.take_left] at hguard
    exact hguard
  have hended := h.database
  rw [finished_of_split htasks hbefore hafter, if_neg hrunning, List.append_nil] at hended
  have horder := h.order
  rw [htasks] at horder
  refine ⟨?_, ?_⟩
  · rw [hnext]
    exact pairwise_replace horder (fun t ht _ _ => hbefore t ht)
      fun t ht _ hbegun => absurd (hafter t ht) hbegun
  · rw [finished_of_split hnext hbefore hafter, hdatabase, hfirst]
    by_cases hphase : phase.Finished
    · rw [if_pos hphase, if_pos hphase, List.map_append, List.map_singleton,
        stateAfterAll_concat, ← hended]
      rfl
    · rw [if_neg hphase, if_neg hphase, List.append_nil, hended]

/-- **The database of a node whose tasks take turns** and fail only by themselves. -/
theorem inTurn_of_run {steps : List (Execution × Move)} (h : Run execution steps e)
    (hturns : ∀ x ∈ steps, x.1.Sequential x.2 ∧ ∀ k, x.2 ≠ .fail k) : e.InTurn := by
  induction h with
  | start hinit =>
      obtain ⟨-, htasks, hdatabase, -, -⟩ := hinit
      refine ⟨?_, ?_⟩
      · rw [htasks]
        exact List.Pairwise.nil
      · rw [finished, htasks]
        exact hdatabase
  | @next steps e e' move hrun hstep ih =>
      have hbefore : ∀ x ∈ steps, x.1.Sequential x.2 ∧ ∀ k, x.2 ≠ .fail k :=
        fun x hx => hturns x (List.mem_append_left _ hx)
      obtain ⟨hturn, hfail⟩ := hturns (e, move) (List.mem_append_right _ List.mem_cons_self)
      by_cases hmsg : ∃ msg, move = .handle msg
      · obtain ⟨msg, rfl⟩ := hmsg
        obtain rfl : e.afterHandle msg = e' := Option.some.inj hstep
        exact (ih hbefore).handle msg
      · push Not at hmsg
        exact (ih hbefore).getsOn (consistent_of_run hrun)
          (inOrder_of_run hrun fun x hx => (hbefore x hx).1) hstep hturn hmsg hfail

end Execution
end Turns

/-! ## Many nodes -/

/-- The nodes with their tasks, what is in flight, and what has happened. -/
structure Cluster (ι : Type) [Executor] where
  executions : ι → Execution
  inFlight : List (StreamMessage ProposalPart)
  made : List Made
  certificates : List CommitCertificate

/-- The message that a move hands to the node. -/
def Move.message? [Executor] : Move → Option AppMsg
  | .handle msg => some msg
  | _ => none

theorem Move.eq_handle [Executor] {move : Move} {msg : AppMsg}
    (h : move.message? = some msg) : move = .handle msg := by
  cases move with
  | handle m => exact congrArg Move.handle (Option.some.inj h)
  | _ => exact absurd h (by simp [Move.message?])

section Cluster

variable [Executor] [Crypto] [Prost] [Payload] {ι : Type}

namespace Cluster

omit [Crypto] [Prost] [Payload] in
/-- The nodes without their tasks. -/
def network (c : Cluster ι) : Network ι where
  nodes i := (c.executions i).node
  inFlight := c.inFlight
  made := c.made
  certificates := c.certificates

variable [DecidableEq ι]

/-- A node takes a step, by itself or with a message. -/
def move (c : Cluster ι) (i : ι) : Move → Option (Cluster ι)
  | .handle msg => some {
      executions := Function.update c.executions i ((c.executions i).afterHandle msg)
      inFlight := (c.network.deliver i msg).inFlight
      made := (c.network.deliver i msg).made
      certificates := (c.network.deliver i msg).certificates }
  | move => ((c.executions i).step move).map fun e =>
      { c with executions := Function.update c.executions i e }

/-- A message can be handed over once what it is part of has been published. -/
def Allowed (c : Cluster ι) (move : Move) : Prop :=
  ∀ msg, move.message? = some msg → c.network.Deliverable msg

end Cluster

variable [DecidableEq ι]

/-- The nodes of the given configurations, their databases in one first state. -/
def cluster (config : ι → Config) (serverStarts : ι → Bool) (first : Executor.ChainState) :
    System (Cluster ι) (ι × Move) where
  init c := c =
    ⟨fun i => ⟨State.new (config i) Db.empty (serverStarts i), [], first, first, [], []⟩,
      [], [], []⟩
  step c l c' := c.Allowed l.2 ∧ c.move l.1 l.2 = some c'

/-! ## Its parts -/

variable {config : ι → Config} {serverStarts : ι → Bool} {first : Executor.ChainState}
  {c c' : Cluster ι} {i : ι}
  {steps : List (Cluster ι × (ι × Move))}

/-- What a step does to the nodes: to one node what its move does. -/
theorem Cluster.executions_move {move : Move} (h : c.move i move = some c') :
    ∃ e, (c.executions i).step move = some e ∧
      c'.executions = Function.update c.executions i e := by
  cases move with
  | handle msg =>
      rw [← Option.some.inj h]
      exact ⟨_, rfl, rfl⟩
  | _ =>
      obtain ⟨e, he, rfl⟩ := Option.map_eq_some_iff.mp h
      exact ⟨e, he, rfl⟩

/-- A task leaves its node, and everything between the nodes, alone. -/
theorem Execution.node_step {e e' : Execution} {move : Move} (h : e.step move = some e')
    (hmsg : move.message? = none) : e'.node = e.node ∧ e'.decided = e.decided := by
  cases move with
  | handle msg => exact absurd hmsg (by simp [Move.message?])
  | load k =>
      obtain ⟨task, -, hload⟩ := Option.bind_eq_some_iff.mp h
      obtain ⟨phase, -, rfl⟩ := load_eq_some hload
      exact ⟨rfl, rfl⟩
  | execute k =>
      obtain ⟨task, -, hexecute⟩ := Option.bind_eq_some_iff.mp h
      obtain ⟨phase, -, rfl⟩ := execute_eq_some hexecute
      exact ⟨rfl, rfl⟩
  | append k =>
      obtain ⟨task, -, happend⟩ := Option.bind_eq_some_iff.mp h
      rcases append_eq_some happend with ⟨phase, -, rfl⟩ | ⟨block, -, rfl⟩ <;> exact ⟨rfl, rfl⟩
  | fail k =>
      obtain ⟨task, -, hfail⟩ := Option.bind_eq_some_iff.mp h
      obtain ⟨phase, -, rfl⟩ := fail_eq_some hfail
      exact ⟨rfl, rfl⟩

theorem Execution.first_step {e e' : Execution} {move : Move} (h : e.step move = some e') :
    e'.first = e.first := by
  rcases step_cases h with ⟨msg, rfl⟩ | ⟨before, task, after, -, hmoves⟩
  · rfl
  · rcases hmoves with ⟨phase, -, rfl⟩ | ⟨block, -, rfl⟩ <;> rfl

/-- A step of a task leaves the network alone. -/
theorem Cluster.network_move {move : Move} (h : c.move i move = some c')
    (hmsg : move.message? = none) : c'.network = c.network := by
  cases move with
  | handle msg => exact absurd hmsg (by simp [Move.message?])
  | _ =>
      obtain ⟨e, he, rfl⟩ := Option.map_eq_some_iff.mp h
      have hnode := (Execution.node_step he rfl).1
      refine congrArg (fun nodes => (⟨nodes, _, _, _⟩ : Network ι)) (funext fun j => ?_)
      show (Function.update c.executions i e j).node = (c.executions j).node
      by_cases hj : j = i
      · rw [hj, Function.update_self, hnode]
      · rw [Function.update_of_ne hj]

/-- A message is a step of the network. -/
theorem Cluster.network_handle (c : Cluster ι) (i : ι) (msg : AppMsg)
    (h : c.move i (.handle msg) = some c') : c'.network = c.network.deliver i msg := by
  rw [← Option.some.inj h]
  refine congrArg (fun nodes => (⟨nodes, _, _, _⟩ : Network ι)) (funext fun j => ?_)
  show (Function.update c.executions i _ j).node = Function.update c.network.nodes i _ j
  by_cases hj : j = i
  · rw [hj, Function.update_self, Function.update_self]
    rfl
  · rw [Function.update_of_ne hj, Function.update_of_ne hj]
    rfl

/-- The message of a step, and who gets it. -/
def messageTo (l : ι × Move) : Option (ι × AppMsg) := l.2.message?.map (l.1, ·)

/-- The steps of the network among those of the cluster. -/
def networkSteps (steps : List (Cluster ι × (ι × Move))) : List (Network ι × (ι × AppMsg)) :=
  steps.filterMap fun x => (messageTo x.2).map (x.1.network, ·)

omit [Crypto] [Prost] [Payload] [DecidableEq ι] in
theorem networkSteps_concat (steps : List (Cluster ι × (ι × Move))) (c : Cluster ι) (i : ι)
    (move : Move) : networkSteps (steps ++ [(c, (i, move))]) = networkSteps steps ++
      (move.message?.map fun msg => (c.network, (i, msg))).toList := by
  rw [networkSteps, List.filterMap_append, ← networkSteps]
  refine congrArg (networkSteps steps ++ ·) ?_
  cases hmsg : move.message? <;> simp [messageTo, hmsg]

/-- The steps of one node. -/
def stepsOf (i : ι) (steps : List (Cluster ι × (ι × Move))) : List (Execution × Move) :=
  steps.filterMap fun x => (if x.2.1 = i then some x.2.2 else none).map (x.1.executions i, ·)

/-- **The nodes run as a network does**, whatever their tasks do. -/
theorem Run.networkRun (h : Run (cluster config serverStarts first) steps c) :
    Run (MalakethTurbo.network config) (networkSteps steps) c.network := by
  refine h.project Cluster.network messageTo ?_ ?_
  · rintro c rfl
    exact ⟨serverStarts, rfl⟩
  · rintro c ⟨i, move⟩ c' ⟨hallowed, hmove⟩
    cases hmsg : move.message? with
    | none =>
        refine Or.inr ⟨?_, Cluster.network_move hmove hmsg⟩
        rw [messageTo, hmsg]
        rfl
    | some msg =>
        obtain rfl := Move.eq_handle hmsg
        exact Or.inl ⟨(i, msg), rfl, hallowed msg rfl, Cluster.network_handle c i msg hmove⟩

/-- **Each node that serves RPC runs as a node with its tasks does**, whatever the others do. -/
theorem Run.executionRun (h : Run (cluster config serverStarts first) steps c) (i : ι)
    (hrpc : (config i).enableRpc = true) (hstarts : serverStarts i = true) :
    Run MalakethTurbo.execution (stepsOf i steps) (c.executions i) := by
  refine h.project (fun c => c.executions i) (fun l => if l.1 = i then some l.2 else none) ?_ ?_
  · rintro c rfl
    refine ⟨?_, rfl, rfl, rfl, rfl⟩
    show ((config i).enableRpc && serverStarts i) = true
    rw [hrpc, hstarts]
    rfl
  · rintro c ⟨j, move⟩ c' ⟨-, hmove⟩
    obtain ⟨e, hstep, hnext⟩ := Cluster.executions_move hmove
    by_cases hj : j = i
    · subst hj
      refine Or.inl ⟨move, if_pos rfl, ?_⟩
      rw [hnext, Function.update_self]
      exact hstep
    · refine Or.inr ⟨if_neg hj, ?_⟩
      rw [hnext, Function.update_of_ne (Ne.symm hj)]

/-! ## What a node has been given to execute -/

/-- The blocks handed to the tasks of a node are those it has settled that are not empty. -/
theorem Run.decided_eq (h : Run (cluster config serverStarts first) steps c) (i : ι) :
    (c.executions i).decided =
      (settledBy i (networkSteps steps)).filter fun block => block.2 ≠ [] := by
  refine h.history_along (G := fun _ _ => True) (P := fun steps c => (c.executions i).decided =
    (settledBy i (networkSteps steps)).filter fun block => block.2 ≠ []) ?_ ?_ fun _ _ => trivial
  · rintro c rfl
    rfl
  · rintro steps c ⟨j, move⟩ c' hprev - ⟨-, hmove⟩
    obtain ⟨e, hstep, hnext⟩ := Cluster.executions_move hmove
    rw [networkSteps_concat, hnext]
    cases hmsg : move.message? with
    | none =>
        rw [Option.map_none, Option.toList_none, List.append_nil, ← hprev]
        by_cases hi : i = j
        · rw [hi, Function.update_self, (Execution.node_step hstep hmsg).2]
        · rw [Function.update_of_ne hi]
    | some msg =>
        obtain rfl := Move.eq_handle hmsg
        obtain rfl : (c.executions j).afterHandle msg = e := Option.some.inj hstep
        rw [Option.map_some, Option.toList_some, settledBy_concat, List.filter_append, ← hprev]
        by_cases hi : i = j
        · subst hi
          rw [Function.update_self, if_pos rfl, ← decidedBlocks_eq_filter]
          rfl
        · rw [Function.update_of_ne hi, if_neg (Ne.symm hi), List.filter_nil, List.append_nil]

theorem Run.first_eq (h : Run (cluster config serverStarts first) steps c) (i : ι) :
    (c.executions i).first = first := by
  refine h.invariant (P := fun c => (c.executions i).first = first) ?_ ?_
  · rintro c rfl
    rfl
  · rintro c ⟨j, move⟩ c' hprev ⟨-, hmove⟩
    obtain ⟨e, hstep, hnext⟩ := Cluster.executions_move hmove
    rw [hnext]
    by_cases hi : i = j
    · subst hi
      rw [Function.update_self, Execution.first_step hstep, hprev]
    · rw [Function.update_of_ne hi, hprev]

/-! ## Replicated databases -/

/-- The tasks of a node wait for each other, and fail only by themselves. -/
def TakeTurns (i : ι) (steps : List (Cluster ι × (ι × Move))) : Prop :=
  ∀ x ∈ stepsOf i steps, x.1.Sequential x.2 ∧ ∀ k, x.2 ≠ .fail k

/-- **One chain, executed.**  In a coherent run of nodes that begin at one height and in one
database state, in which a node is told of rounds and decisions of the height it is at only and
no decision fails, there is one chain of blocks that are not empty, each of them proposed for
its height.  Every node that serves RPC has tasks for a first part of it, the blocks it has
settled.  If these tasks wait for each other, its database is what the blocks of those that
have ended make of the first state: nodes that have come equally far have one database,
whatever is in flight between them and however their tasks were interleaved. -/
theorem databases_agree {start : Height}
    (hrun : Run (cluster config serverStarts first) steps c) (hcoherent : c.network.Coherent)
    (hstart : ∀ i, (config i).startHeight.getD default = start)
    (hin : ∀ x ∈ networkSteps steps, InStep x.1 x.2) :
    ∃ chain : List (Height × Bytes),
      (∀ b ∈ chain, b.2 ≠ [] ∧ ∃ m ∈ c.made, m.height = b.1 ∧ m.data = b.2) ∧
      (chain.map Prod.fst).Pairwise (· < ·) ∧
      ∀ i, (config i).enableRpc = true → serverStarts i = true →
        (c.executions i).tasks.map Task.block =
          ((settledBy i (networkSteps steps)).filter fun b => b.2 ≠ []) ∧
        (c.executions i).tasks.map Task.block <+: chain ∧
        (TakeTurns i steps → (c.executions i).database =
          stateAfterAll first (chain.take (c.executions i).finished.length)) := by
  obtain ⟨order, horder⟩ := hrun.networkRun.exists_oneOrder hcoherent hstart hin
  refine ⟨order.filter fun b => b.2 ≠ [], fun b hb => ?_, ?_, fun i hrpc hstarts => ?_⟩
  · obtain ⟨hmem, hdata⟩ := List.mem_filter.mp hb
    exact ⟨of_decide_eq_true hdata, horder.proposed b hmem⟩
  · exact List.pairwise_map.mpr ((pairwise_of_numbered horder.numbered).sublist List.filter_sublist)
  · have hnode := hrun.executionRun i hrpc hstarts
    have htasks : (c.executions i).tasks.map Task.block =
        (settledBy i (networkSteps steps)).filter fun b => b.2 ≠ [] :=
      (Execution.consistent_of_run hnode).decided.trans (hrun.decided_eq i)
    have hfirst : (c.executions i).tasks.map Task.block <+:
        order.filter fun b => b.2 ≠ [] := by
      rw [htasks]
      exact (horder.settled i).filter _
    refine ⟨htasks, hfirst, fun hturns => ?_⟩
    have hinTurn := Execution.inTurn_of_run hnode hturns
    have hended := (hinTurn.finished_isPrefix.map Task.block).trans hfirst
    rw [hinTurn.database, hrun.first_eq i, List.prefix_iff_eq_take.mp hended, List.length_map]

/-! ## Runs to look at -/

instance (c : Cluster ι) : DecidablePred c.Allowed
  | .handle msg => decidable_of_iff (c.network.Deliverable msg)
      ⟨fun h m hm => Option.some.inj hm ▸ h, fun h => h msg rfl⟩
  | .load _ | .execute _ | .append _ | .fail _ =>
      isTrue fun _ h => absurd h (by simp [Move.message?])

omit [Crypto] [Prost] [Payload] in
instance (move : Move) : Decidable (∀ k, move ≠ .fail k) :=
  match move with
  | .fail k => isFalse fun h => h k rfl
  | .handle _ | .load _ | .execute _ | .append _ => isTrue fun _ h => Move.noConfusion h

instance (i : ι) (steps : List (Cluster ι × (ι × Move))) : Decidable (TakeTurns i steps) :=
  inferInstanceAs (Decidable (∀ x ∈ stepsOf i steps, x.1.Sequential x.2 ∧ ∀ k, x.2 ≠ .fail k))

/-- The cluster after steps that are taken one after the other. -/
def Cluster.moveAll (c : Cluster ι) (ls : List (ι × Move)) : Cluster ι :=
  ls.foldl (fun c l => (c.move l.1 l.2).getD c) c

/-- Those steps. -/
def Cluster.stepsAlong (c : Cluster ι) : List (ι × Move) → List (Cluster ι × (ι × Move))
  | [] => []
  | l :: ls => (c, l) :: ((c.move l.1 l.2).getD c).stepsAlong ls

/-- Every step can be taken when its turn comes. -/
def Cluster.allTaken (c : Cluster ι) : List (ι × Move) → Bool
  | [] => true
  | l :: ls => decide (c.Allowed l.2) && (c.move l.1 l.2).isSome &&
      ((c.move l.1 l.2).getD c).allTaken ls

theorem Run.moveAll (h : Run (cluster config serverStarts first) steps c) (ls : List (ι × Move))
    (hok : c.allTaken ls = true) :
    Run (cluster config serverStarts first) (steps ++ c.stepsAlong ls) (c.moveAll ls) := by
  induction ls generalizing c steps with
  | nil =>
      rw [Cluster.stepsAlong, List.append_nil]
      exact h
  | cons l ls ih =>
      obtain ⟨hfirst, hrest⟩ := Bool.and_eq_true_iff.mp hok
      obtain ⟨hallowed, htaken⟩ := Bool.and_eq_true_iff.mp hfirst
      have hstep : c.move l.1 l.2 = some ((c.move l.1 l.2).getD c) := by
        obtain ⟨c', hc'⟩ := Option.isSome_iff_exists.mp htaken
        rw [hc']
        rfl
      rw [Cluster.stepsAlong, List.append_cons]
      exact ih (h.next ⟨of_decide_eq_true hallowed, hstep⟩) hrest

end Cluster

section Demo

attribute [local instance] demoExecutor demoCrypto Prost.reference demoPayload

/-- The two demo nodes before anything has happened, with databases without blocks. -/
def demoCluster : Cluster (Fin 2) where
  executions i := ⟨State.new (demoConfigs i) Db.empty true, [], ([] : List Bytes),
    ([] : List Bytes), [], []⟩
  inFlight := []
  made := []
  certificates := []

/-- A block is proposed and decided, and each node executes it, one step in turn. -/
def demoClusterMoves : List (Fin 2 × Move) :=
  demoDeliveries.map (fun x => (x.1, .handle x.2)) ++
    [(demoFirst, .load 0), (demoSecond, .load 0), (demoSecond, .execute 0),
      (demoFirst, .execute 0), (demoFirst, .append 0), (demoSecond, .append 0)]

theorem databases_agree_demo :
    ((demoCluster.moveAll demoClusterMoves).executions 0).database =
      ((demoCluster.moveAll demoClusterMoves).executions 1).database := by
  have hstart : Run (cluster demoConfigs (fun _ => true) ([] : List Bytes)) [] demoCluster :=
    .start rfl
  have hrun := hstart.moveAll demoClusterMoves (by decide +kernel)
  have hstarts : ∀ i, (demoConfigs i).startHeight.getD default = ⟨1⟩ := by decide
  obtain ⟨chain, -, -, hall⟩ := databases_agree hrun
    ⟨by decide +kernel, by decide +kernel, by decide +kernel, by decide +kernel⟩
    hstarts (by decide +kernel)
  rw [(hall 0 rfl rfl).2.2 (by decide +kernel), (hall 1 rfl rfl).2.2 (by decide +kernel)]
  have hlength : ((demoCluster.moveAll demoClusterMoves).executions 0).finished.length =
      ((demoCluster.moveAll demoClusterMoves).executions 1).finished.length := by
    decide +kernel
  rw [hlength]

end Demo
end MalakethTurbo
