import MassBFT.Replication.MerkleModes

/-!
# Proof generation with a thread pool

`proofGenParallel` hashes one level after another. For each level the coordinator pushes the
hashing tasks, prepares the next level — `buf1 = buf2`, a new buffer, `buf2` to it,
`prevLen >>= 1` — and only then waits for the tasks. The tasks have captured `buf1`, `buf2` and
`prevLen` **by reference**, so a task works on what the coordinator has made of them by the time
it runs.

A `Schedule` says for every level in which order the statements of the coordinator and the tasks
come (`Interleaving`), and in which order the tasks come that update the proofs. An index past the
end of a buffer is undefined behaviour: the run has no outcome.

**If on every level all hashing tasks run before `buf1 = buf2`, the outcome is that of the
sequential `proofGen`** (`proofGenParallelIn_eq`), in whatever order the tasks come. Without a
thread pool every task runs where it is pushed, and this is `proofGenParallel`
(`proofGenParallelIn_inline`). A task that comes later hashes the buffer that is to be written
(`late_tasks_miss_the_level`).
-/

set_option autoImplicit false

namespace MassBFT.Replication.MerkleTree

open List Stride

/-! ## The statements and the tasks of one level -/

/-- What happens on one level between the first push and the end of the wait. -/
inductive Action where
  /-- `PushEmergencyTask`, with `start = i << 1` -/
  | pushTask (i : Nat)
  /-- `buf1 = buf2` -/
  | setBuf1
  /-- `proofGenBufList.push_back(...)`, with `prevLen >> 1` entries -/
  | pushBuffer
  /-- `buf2 = proofGenBufList.back().get()` -/
  | setBuf2
  /-- `prevLen >>= 1` -/
  | halve
  /-- A worker runs the task. -/
  | runTask (i : Nat)
  deriving DecidableEq, Repr

namespace Action

/-- The task that runs, if it is one. -/
def task : Action → Option Nat
  | runTask i => some i
  | _ => none

/-- A statement of the coordinator. -/
def ofCoordinator (a : Action) : Bool := a.task.isNone

/-- The statements between the pushes and the wait. -/
def preparation : List Action := [setBuf1, pushBuffer, setBuf2, halve]

/-- The statements of the coordinator on one level. -/
def coordinator (routines : Nat) : List Action := (List.range routines).map pushTask ++ preparation

end Action

/-- An order of the actions of one level: the statements of the coordinator come as in the
program, and every task runs once, after it was pushed. The wait ends with the last task. -/
structure Interleaving (routines : Nat) where
  actions : List Action
  program : actions.filter Action.ofCoordinator = Action.coordinator routines
  once : (actions.filterMap Action.task).Perm (List.range routines)
  pushed : ∀ i < routines, [Action.pushTask i, Action.runTask i].Sublist actions

/-- No task runs after `buf1 = buf2`. -/
def Interleaving.TasksFirst {routines : Nat} (il : Interleaving routines) : Prop :=
  (il.actions.dropWhile (· ≠ .setBuf1)).filterMap Action.task = []

/-- An order of the tasks that update the proofs of one level. The coordinator changes nothing
between the first push and the end of the wait. -/
structure TaskOrder (routines : Nat) where
  order : List Nat
  once : order.Perm (List.range routines)

/-- What the thread pool does: for the number of tasks on a level, the order there. -/
structure Schedule where
  hashing (step routines : Nat) : Interleaving routines
  updating (step routines : Nat) : TaskOrder routines

/-! ## The run -/

/-- What the tasks and the coordinator share. A pointer to a buffer is its place in the list. -/
structure Shared where
  proofGenBufList : List (List HashString)
  buf1 : Nat
  buf2 : Nat
  prevLen : Nat
  deriving DecidableEq

namespace Shared

/-- `*buf1` -/
def source (sh : Shared) : List HashString := sh.proofGenBufList.getD sh.buf1 []

/-- `*buf2` -/
def target (sh : Shared) : List HashString := sh.proofGenBufList.getD sh.buf2 []

/-- A new `*buf2`. -/
def write (sh : Shared) (buf : List HashString) : Shared :=
  { sh with proofGenBufList := sh.proofGenBufList.set sh.buf2 buf }

end Shared

/-- `proofGenParallel` between two levels. -/
structure Generating extends Shared where
  proofs : List Proof
  deriving DecidableEq

/-- The tasks of `updateProofsParallel`, in their order. -/
def updateProofsIn {routines : Nat} (tasks : TaskOrder routines) (buf : List HashString)
    (bufLen step : Nat) (proofs : List Proof) : List Proof :=
  tasks.order.foldl (fun ps i => (indices (2 * i) bufLen (2 * routines)).foldl
    (fun ps j => updatePairProof buf j (2 ^ step) step ps) ps) proofs

section

variable (sha256 : Bytes → HashString)

/-- One round of a hashing task. -/
def hashPair (sh : Shared) (j : Nat) : Option Shared :=
  if j + 1 < sh.source.length ∧ j / 2 < sh.target.length then
    some (sh.write (sh.target.set (j / 2)
      (hashFunc sha256 (sh.source.getD j default) (sh.source.getD (j + 1) default))))
  else none

/-- One action on a level with so many tasks. -/
def act (routines : Nat) (sh : Shared) : Action → Option Shared
  | .pushTask _ => some sh
  | .setBuf1 => some { sh with buf1 := sh.buf2 }
  | .pushBuffer =>
    some { sh with
      proofGenBufList := sh.proofGenBufList ++ [List.replicate (sh.prevLen / 2) default] }
  | .setBuf2 => some { sh with buf2 := sh.proofGenBufList.length - 1 }
  | .halve => some { sh with prevLen := sh.prevLen / 2 }
  | .runTask i => (indices (2 * i) sh.prevLen (2 * routines)).foldlM (hashPair sha256) sh

/-- One level of `proofGenParallel`. -/
def generateLevel (numRoutines : Nat) (sched : Schedule) (st : Generating) (step : Nat) :
    Option Generating :=
  let routines := calculateNumRoutine numRoutines st.prevLen
  match (sched.hashing step routines).actions.foldlM (act sha256 routines) st.toShared with
  | none => none
  | some sh =>
    let fixed := fixOdd sh.source sh.prevLen
    some
      { proofGenBufList := sh.proofGenBufList.set sh.buf1 fixed.1
        buf1 := sh.buf1
        buf2 := sh.buf2
        prevLen := fixed.2
        proofs := updateProofsIn (sched.updating step (calculateNumRoutine numRoutines fixed.2))
          fixed.1 fixed.2 step st.proofs }

/-- `proofGenParallel`, with a thread pool: the root and the proofs. -/
def proofGenParallelIn (numRoutines : Nat) (sched : Schedule) (depth : Nat)
    (leaves : List HashString) : Option (HashString × List Proof) :=
  let fixed := fixOdd leaves leaves.length
  let st : Generating :=
    { proofGenBufList := [fixed.1, List.replicate (fixed.2 / 2) default]
      buf1 := 0
      buf2 := 1
      prevLen := fixed.2
      proofs := updateProofsIn (sched.updating 0 (calculateNumRoutine numRoutines leaves.length))
        fixed.1 leaves.length 0 (initProofs leaves) }
  ((indices 1 depth 1).foldlM (generateLevel sha256 numRoutines sched) st).map fun st =>
    (hashFunc sha256 (st.source.getD 0 default) (st.source.getD 1 default), st.proofs)

end

/-! ## Tasks that come first -/

theorem Action.dropWhile_filter (actions : List Action) :
    (actions.filter ofCoordinator).dropWhile (· ≠ setBuf1) =
      (actions.dropWhile (· ≠ setBuf1)).filter ofCoordinator := by
  induction actions with
  | nil => rfl
  | cons a actions ih =>
    cases a with
    | setBuf1 => rfl
    | _ => exact ih

/-- The preparation of the next level comes last. -/
theorem Interleaving.TasksFirst.split {routines : Nat} {il : Interleaving routines}
    (h : il.TasksFirst) : ∃ front, il.actions = front ++ Action.preparation ∧
      ∀ a ∈ front, (∃ i, a = .pushTask i) ∨ ∃ i, a = .runTask i := by
  have hparts := takeWhile_append_dropWhile (p := fun a => decide (a ≠ Action.setBuf1))
    (l := il.actions)
  have hback : il.actions.dropWhile (· ≠ .setBuf1) = Action.preparation := by
    have hall : (il.actions.dropWhile (· ≠ .setBuf1)).filter Action.ofCoordinator =
        il.actions.dropWhile (· ≠ .setBuf1) := by
      refine filter_eq_self.mpr fun a ha => ?_
      rw [Action.ofCoordinator, filterMap_eq_nil_iff.mp h a ha]
      rfl
    rw [← hall, ← Action.dropWhile_filter, il.program, Action.coordinator,
      dropWhile_append_of_pos (by simp)]
    rfl
  rw [hback] at hparts
  refine ⟨_, hparts.symm, fun a ha => ?_⟩
  have hprogram := il.program
  rw [← hparts, filter_append, Action.coordinator] at hprogram
  have hpushes := append_cancel_right hprogram
  by_cases hcoord : a.ofCoordinator = true
  · have hmem := mem_filter.mpr ⟨ha, hcoord⟩
    rw [hpushes] at hmem
    obtain ⟨i, -, rfl⟩ := mem_map.mp hmem
    exact Or.inl ⟨i, rfl⟩
  · cases a with
    | runTask i => exact Or.inr ⟨i, rfl⟩
    | _ => exact absurd rfl hcoord

/-! ## One level -/

namespace Shared

variable {sh : Shared}

/-- The tasks read one buffer and write another. -/
structure Separate (sh : Shared) : Prop where
  buf1 : sh.buf1 < sh.proofGenBufList.length
  buf2 : sh.buf2 < sh.proofGenBufList.length
  ne : sh.buf1 ≠ sh.buf2

theorem Separate.source_write (h : sh.Separate) (buf : List HashString) :
    (sh.write buf).source = sh.source := by
  simp [source, write, List.getD, getElem?_set_ne h.ne.symm]

theorem Separate.target_write (h : sh.Separate) (buf : List HashString) :
    (sh.write buf).target = buf := by
  simp [target, write, List.getD, getElem?_set_self h.buf2]

/-- After the preparation of the next level: `buf` was written, `prevLen` is left. -/
def prepared (sh : Shared) (buf : List HashString) (prevLen : Nat) : Shared where
  proofGenBufList := sh.proofGenBufList.set sh.buf2 buf ++ [List.replicate (sh.prevLen / 2) default]
  buf1 := sh.buf2
  buf2 := sh.proofGenBufList.length
  prevLen := prevLen

theorem Separate.source_prepared (h : sh.Separate) (buf : List HashString) (prevLen : Nat) :
    (sh.prepared buf prevLen).source = buf := by
  simp [source, prepared, List.getD, getElem?_append, h.buf2]

theorem target_prepared (buf : List HashString) (prevLen : Nat) :
    (sh.prepared buf prevLen).target = List.replicate (sh.prevLen / 2) default := by
  simp [target, prepared, List.getD]

theorem Separate.prepared (h : sh.Separate) (buf : List HashString) (prevLen : Nat) :
    (sh.prepared buf prevLen).Separate where
  buf1 := by
    have hlt := h.buf2
    simp only [Shared.prepared, length_append, length_set, length_singleton]
    omega
  buf2 := by simp [Shared.prepared]
  ne := h.buf2.ne

/-- `fixOdd` works on `*buf1`. -/
theorem Separate.set_prepared (h : sh.Separate) (buf buf' : List HashString) (prevLen : Nat) :
    (sh.prepared buf prevLen).proofGenBufList.set sh.buf2 buf' =
      sh.proofGenBufList.set sh.buf2 buf' ++ [List.replicate (sh.prevLen / 2) default] := by
  simp [Shared.prepared, h.buf2]

theorem write_write (buf buf' : List HashString) : (sh.write buf).write buf' = sh.write buf' := by
  simp [write]

theorem Separate.write_target (h : sh.Separate) : sh.write sh.target = sh := by
  have hlt := h.buf2
  have hget : sh.target = sh.proofGenBufList[sh.buf2] := by
    simp [target, List.getD, getElem?_eq_getElem hlt]
  simp [write, hget]

end Shared

section

variable {sha256 : Bytes → HashString} {sh : Shared}

/-- What the rounds of the tasks leave in `buf`. -/
def hashed (sha256 : Bytes → HashString) (source : List HashString) (js : List Nat)
    (buf : List HashString) : List HashString :=
  js.foldl (fun buf j => buf.set (j / 2)
    (hashFunc sha256 (source.getD j default) (source.getD (j + 1) default))) buf

theorem length_hashed (source : List HashString) (js : List Nat) (buf : List HashString) :
    (hashed sha256 source js buf).length = buf.length :=
  length_foldl_set (· / 2) _ _ _

/-- There is room for the pairs of the level, and for their hashes. -/
structure Shared.Room (sh : Shared) : Prop extends sh.Separate where
  even : sh.prevLen % 2 = 0
  source : sh.prevLen ≤ sh.source.length
  target : sh.prevLen / 2 ≤ sh.target.length

theorem Shared.Room.foldlM_hashPair (h : sh.Room) {js : List Nat}
    (hjs : ∀ j ∈ js, j % 2 = 0 ∧ j < sh.prevLen) {buf : List HashString}
    (hlen : buf.length = sh.target.length) :
    js.foldlM (hashPair sha256) (sh.write buf) =
      some (sh.write (hashed sha256 sh.source js buf)) := by
  induction js generalizing buf with
  | nil => rfl
  | cons j js ih =>
    obtain ⟨hj, hlt⟩ := hjs j mem_cons_self
    have heven := h.even
    have hsource := h.source
    have htarget := h.target
    have hround : hashPair sha256 (sh.write buf) j = some (sh.write (buf.set (j / 2)
        (hashFunc sha256 (sh.source.getD j default) (sh.source.getD (j + 1) default)))) := by
      rw [hashPair, h.source_write, h.target_write, if_pos ⟨by omega, by omega⟩, Shared.write_write]
    rw [foldlM_cons, hround]
    exact ih (fun j hj => hjs j (mem_cons_of_mem _ hj)) (by rw [length_set, hlen])

/-- The pairs that the tasks of an order hash, one task after another. -/
def pairsOf (routines prevLen : Nat) (order : List Nat) : List Nat :=
  order.flatMap fun i => indices (2 * i) prevLen (2 * routines)

theorem perm_pairsOf {routines : Nat} (hr : 0 < routines) (prevLen : Nat) {order : List Nat}
    (horder : order.Perm (List.range routines)) :
    (pairsOf routines prevLen order).Perm (indices 0 prevLen 2) :=
  (horder.flatMap_right _).trans (split_perm Nat.two_pos hr prevLen)

theorem Shared.Room.foldlM_act (h : sh.Room) {routines : Nat} (hr : 0 < routines)
    {front : List Action} (hfront : ∀ a ∈ front, (∃ i, a = .pushTask i) ∨ ∃ i, a = .runTask i)
    {buf : List HashString} (hlen : buf.length = sh.target.length) :
    front.foldlM (act sha256 routines) (sh.write buf) = some (sh.write (hashed sha256 sh.source
      (pairsOf routines sh.prevLen (front.filterMap Action.task)) buf)) := by
  induction front generalizing buf with
  | nil => rfl
  | cons a front ih =>
    have hrest := fun a ha => hfront a (mem_cons_of_mem _ ha)
    rw [foldlM_cons]
    rcases hfront a mem_cons_self with ⟨i, rfl⟩ | ⟨i, rfl⟩
    · exact ih hrest hlen
    · have hjs : ∀ j ∈ indices (2 * i) sh.prevLen (2 * routines), j % 2 = 0 ∧ j < sh.prevLen := by
        intro j hj
        obtain ⟨k, rfl, hlt⟩ := (mem_indices (Nat.mul_pos Nat.two_pos hr)).mp hj
        exact ⟨by rw [Nat.mul_assoc]; omega, hlt⟩
      have hrun : act sha256 routines (sh.write buf) (.runTask i) = some (sh.write
          (hashed sha256 sh.source (indices (2 * i) sh.prevLen (2 * routines)) buf)) :=
        h.foldlM_hashPair hjs hlen
      rw [hrun]
      refine (ih hrest (by rw [length_hashed, hlen])).trans ?_
      simp [pairsOf, hashed, Action.task, foldl_append]

end

/-! ## All levels -/

section

variable {sha256 : Bytes → HashString} {leaves : List HashString} {st : Generating}
  {numRoutines depth : Nat} {sched : Schedule}

/-- What a level leaves, as `proofGen` and the routines without a pool have it. -/
def Generating.toGenState (st : Generating) : GenState where
  buf := st.source
  prevLen := st.prevLen
  proofs := st.proofs
  next := st.target

/-- Level `k` is in front of `*buf1`, and there is room for the next one in `*buf2`. -/
structure Ready (sha256 : Bytes → HashString) (leaves : List HashString) (k : Nat)
    (st : Generating) : Prop where
  filled : Filled sha256 leaves k st.toGenState
  separate : st.Separate
  target : st.prevLen / 2 ≤ st.target.length

theorem Ready.room {k : Nat} (h : Ready sha256 leaves k st) :
    st.toShared.Room where
  toSeparate := h.separate
  even := by
    have hlen : st.prevLen = _ := h.filled.prevLen
    rw [hlen]
    exact HashTree.even_length_level leaves k
  source := by
    have hlen : st.prevLen = _ := h.filled.prevLen
    rw [hlen]
    exact h.filled.front.length_le
  target := h.target

theorem updateProofsIn_eq {routines : Nat} (hr : 0 < routines) (tasks : TaskOrder routines)
    (buf : List HashString) (bufLen step : Nat) (proofs : List Proof) :
    updateProofsIn tasks buf bufLen step proofs = updateProofs buf bufLen step proofs := by
  rw [← updateProofs_perm (perm_pairsOf hr bufLen tasks.once), pairsOf, foldl_flatMap]
  rfl

/-- On every level below the top, with as many tasks as that level has, the tasks come first. -/
def Schedule.TasksFirst (sched : Schedule) (sha256 : Bytes → HashString) (numRoutines : Nat)
    (leaves : List HashString) (depth : Nat) : Prop :=
  ∀ k, k + 1 < depth → (sched.hashing (k + 1) (calculateNumRoutine numRoutines
    (HashTree.level (hashFunc sha256) leaves k).length)).TasksFirst

/-- The actions of one level, when the tasks come first. -/
theorem Shared.Room.foldlM_actions {sh : Shared} (h : sh.Room) {routines : Nat}
    (hr : 0 < routines) {il : Interleaving routines} (hfirst : il.TasksFirst) :
    ∃ js, js.Perm (indices 0 sh.prevLen 2) ∧
      il.actions.foldlM (act sha256 routines) sh =
        some (sh.prepared (hashed sha256 sh.source js sh.target) (sh.prevLen / 2)) := by
  obtain ⟨front, hactions, hfront⟩ := hfirst.split
  have hran := il.once
  rw [hactions, filterMap_append] at hran
  have hnone : Action.preparation.filterMap Action.task = [] := rfl
  rw [hnone, append_nil] at hran
  refine ⟨_, perm_pairsOf hr sh.prevLen hran, ?_⟩
  have htasks := @Shared.Room.foldlM_act sha256 _ h _ hr _ hfront _ rfl
  rw [h.write_target] at htasks
  rw [hactions, foldlM_append, htasks]
  simp [Action.preparation, act, Shared.write, Shared.prepared]

/-- A level once its tasks are done: it is padded, and its siblings go to the proofs. -/
def Generating.finish (st : Generating) (out : List HashString) (step : Nat) : Generating where
  toShared := st.prepared (fixOdd out (st.prevLen / 2)).1 (fixOdd out (st.prevLen / 2)).2
  proofs := updateProofs (fixOdd out (st.prevLen / 2)).1 (fixOdd out (st.prevLen / 2)).2 step
    st.proofs

theorem generateLevel_eq {numRoutines step : Nat} {out : List HashString} (hsep : st.Separate)
    (hrun : (sched.hashing step (calculateNumRoutine numRoutines st.prevLen)).actions.foldlM
      (act sha256 (calculateNumRoutine numRoutines st.prevLen)) st.toShared =
        some (st.prepared out (st.prevLen / 2))) :
    generateLevel sha256 numRoutines sched st step = some (st.finish out step) := by
  rw [generateLevel]
  dsimp only
  rw [hrun]
  dsimp only
  rw [hsep.source_prepared, updateProofsIn_eq (calculateNumRoutine_pos _ _)]
  refine congrArg some ?_
  rw [Generating.finish]
  congr 2
  exact hsep.set_prepared _ _ _

theorem Ready.finish {k : Nat} (h : Ready sha256 leaves k st)
    {out : List HashString} (hout : HashTree.parents (hashFunc sha256)
      (HashTree.level (hashFunc sha256) leaves k) <+: out) :
    Ready sha256 leaves (k + 1) (st.finish out (k + 1)) := by
  have hlen : st.prevLen = _ := h.filled.prevLen
  have hfilled := filled_succ hlen hout h.filled.proofs (List.replicate (st.prevLen / 2) default)
  have hcount := hfilled.prevLen
  dsimp only at hcount
  refine ⟨?_, h.separate.prepared _ _, ?_⟩
  · rw [Generating.toGenState, Generating.finish, h.separate.source_prepared,
      Shared.target_prepared]
    exact hfilled
  · rw [Generating.finish, Shared.target_prepared, length_replicate]
    rw [HashTree.level, HashTree.length_padded, HashTree.length_parents] at hcount
    dsimp only [Shared.prepared]
    omega

/-- **One level**: the tasks have left the level above in front of `*buf2`. -/
theorem Ready.generateLevel {k : Nat} (h : Ready sha256 leaves k st)
    (hfirst : sched.TasksFirst sha256 numRoutines leaves depth) (hk : k + 1 < depth) :
    ∃ st', MerkleTree.generateLevel sha256 numRoutines sched st (k + 1) = some st' ∧
      Ready sha256 leaves (k + 1) st' := by
  have hlen : st.prevLen = _ := h.filled.prevLen
  obtain ⟨js, hjs, hrun⟩ := @Shared.Room.foldlM_actions sha256 _ h.room _
    (calculateNumRoutine_pos numRoutines st.prevLen) (sched.hashing (k + 1) _)
    (hlen ▸ hfirst k hk)
  have hout := @foldl_hash_front sha256 _ _ h.filled.front (HashTree.even_length_level leaves k) js
    (fun j => by rw [hjs.mem_iff, mem_indices Nat.two_pos, hlen]) st.target (hlen ▸ h.target)
  exact ⟨_, generateLevel_eq h.separate hrun, h.finish hout⟩

theorem ready_zero (sched : Schedule) (numRoutines : Nat) :
    Ready sha256 leaves 0
      { proofGenBufList := [(fixOdd leaves leaves.length).1,
          List.replicate ((fixOdd leaves leaves.length).2 / 2) default]
        buf1 := 0
        buf2 := 1
        prevLen := (fixOdd leaves leaves.length).2
        proofs := updateProofsIn (sched.updating 0 (calculateNumRoutine numRoutines leaves.length))
          (fixOdd leaves leaves.length).1 leaves.length 0 (initProofs leaves) } where
  filled := by
    rw [updateProofsIn_eq (calculateNumRoutine_pos _ _)]
    exact filled_zero _
  separate := ⟨Nat.two_pos, Nat.one_lt_two, Nat.zero_ne_one⟩
  target := by simp [Shared.target]

/-- The loop over the levels. -/
theorem ready_top (hfirst : sched.TasksFirst sha256 numRoutines leaves depth)
    (h : Ready sha256 leaves 0 st) :
    ∃ st', (indices 1 depth 1).foldlM (generateLevel sha256 numRoutines sched) st = some st' ∧
      Ready sha256 leaves (depth - 1) st' := by
  have hlevels : ∀ n, n ≤ depth - 1 → ∃ st',
      (List.range' 1 n).foldlM (generateLevel sha256 numRoutines sched) st = some st' ∧
        Ready sha256 leaves n st' := by
    intro n
    induction n with
    | zero => exact fun _ => ⟨st, rfl, h⟩
    | succ n ih =>
      intro hn
      obtain ⟨below, hrun, hbelow⟩ := ih (by omega)
      obtain ⟨st', hlevel, hready⟩ := hbelow.generateLevel hfirst (by omega)
      refine ⟨st', ?_, hready⟩
      rw [List.range'_1_concat, foldlM_append, hrun, Nat.add_comm 1 n]
      simp [hlevel]
  have hcount : (depth - 1 + (1 - 1)) / 1 = depth - 1 := by simp
  rw [indices, hcount]
  exact hlevels _ le_rfl

/-- **With the tasks first, the root and the proofs are generated.** -/
theorem proofGenParallelIn_generated
    (hfirst : sched.TasksFirst sha256 numRoutines leaves depth) (htwo : 2 ≤ leaves.length)
    (hdepth : 1 ≤ depth) :
    ∃ out, proofGenParallelIn sha256 numRoutines sched depth leaves = some out ∧
      Generated sha256 leaves depth out := by
  obtain ⟨st, hrun, hready⟩ := ready_top hfirst (@ready_zero sha256 leaves sched numRoutines)
  refine ⟨_, ?_, hready.filled.generated htwo hdepth⟩
  rw [proofGenParallelIn, hrun]
  rfl

theorem Generated.eq {depth : Nat} {out out' : HashString × List Proof}
    (h : Generated sha256 leaves depth out) (h' : Generated sha256 leaves depth out') :
    out = out' := by
  have hroot : some out.1 = some out'.1 := h.root.symm.trans h'.root
  exact Prod.ext (Option.some.inj hroot) (h.proofs.trans h'.proofs.symm)

end

/-! ## Schedules -/

theorem Action.task_preparation : ∀ a ∈ preparation, a.task = none := by
  simp [preparation, task]

namespace Interleaving

variable (routines : Nat)

/-- Without a thread pool, a task runs where it is pushed. -/
def inline : Interleaving routines where
  actions := (List.range routines).flatMap (fun i => [.pushTask i, .runTask i]) ++
    Action.preparation
  program := by
    rw [filter_append, filter_flatMap, Action.coordinator, map_eq_flatMap]
    rfl
  once := by
    rw [filterMap_append, filterMap_flatMap,
      filterMap_eq_nil_iff.mpr Action.task_preparation, append_nil]
    exact Perm.of_eq (flatMap_singleton' _)
  pushed i hi := by
    refine Sublist.trans ?_ (sublist_append_left _ _)
    exact sublist_flatten_of_mem (mem_map.mpr ⟨i, mem_range.mpr hi, rfl⟩)

/-- All tasks are pushed, then the coordinator executes `n` more statements, and then the tasks
run, the last one first. -/
def after (n : Nat) : Interleaving routines where
  actions := (List.range routines).map .pushTask ++ (Action.preparation.take n ++
    ((List.range routines).reverse.map .runTask ++ Action.preparation.drop n))
  program := by
    have hall : ∀ a ∈ Action.preparation, a.ofCoordinator = true := fun a ha => by
      rw [Action.ofCoordinator, Action.task_preparation a ha]
      rfl
    rw [filter_append, filter_append, filter_append,
      filter_eq_self.mpr fun a ha => hall a (mem_of_mem_take ha),
      filter_eq_self.mpr fun a ha => hall a (mem_of_mem_drop ha)]
    simp [Action.coordinator, Action.ofCoordinator, Action.task, filter_map, Function.comp_def]
  once := by
    rw [filterMap_append, filterMap_append, filterMap_append,
      filterMap_eq_nil_iff.mpr fun a ha => Action.task_preparation a (mem_of_mem_take ha),
      filterMap_eq_nil_iff.mpr fun a ha => Action.task_preparation a (mem_of_mem_drop ha)]
    simp [Action.task, filterMap_map, Function.comp_def, reverse_perm]
  pushed i hi := by
    have hpush : [Action.pushTask i].Sublist ((List.range routines).map .pushTask) :=
      singleton_sublist.mpr (mem_map_of_mem (mem_range.mpr hi))
    refine hpush.append (singleton_sublist.mpr ?_)
    simp [hi]

theorem tasksFirst_inline : (inline routines).TasksFirst := by
  have hne : ∀ a ∈ (List.range routines).flatMap (fun i => [Action.pushTask i, .runTask i]),
      decide (a ≠ Action.setBuf1) = true := by
    intro a ha
    obtain ⟨i, -, hi⟩ := mem_flatMap.mp ha
    rcases mem_pair.mp hi with rfl | rfl <;> rfl
  rw [TasksFirst, inline, dropWhile_append_of_pos hne]
  rfl

theorem tasksFirst_after : (after routines 0).TasksFirst := by
  rw [TasksFirst, after, dropWhile_append_of_pos (by simp), take_zero, nil_append,
    dropWhile_append_of_pos (by simp)]
  rfl

end Interleaving

namespace Schedule

/-- No thread pool. -/
def inline : Schedule where
  hashing _ := Interleaving.inline
  updating _ routines := ⟨List.range routines, Perm.refl _⟩

/-- The pool runs the hashing tasks of every level after `n` statements of the preparation. -/
def after (n : Nat) : Schedule where
  hashing _ routines := Interleaving.after routines n
  updating _ routines := ⟨(List.range routines).reverse, reverse_perm _⟩

end Schedule

/-- **Without a thread pool** the run is that of the routines one after another. -/
theorem proofGenParallelIn_inline (sha256 : Bytes → HashString) {leaves : List HashString}
    (htwo : 2 ≤ leaves.length) (numRoutines : Nat) {depth : Nat} (hdepth : 1 ≤ depth) :
    proofGenParallelIn sha256 numRoutines .inline depth leaves =
      some (proofGenParallel sha256 numRoutines depth leaves) := by
  obtain ⟨out, hrun, hout⟩ := @proofGenParallelIn_generated sha256 leaves numRoutines depth .inline
    (fun _ _ => Interleaving.tasksFirst_inline _) htwo hdepth
  rw [hrun, hout.eq (proofGenParallel_generated numRoutines htwo hdepth)]

/-- Leaves that differ in their first byte. -/
def numberedLeaves (n : Nat) : List HashString :=
  (List.range n).map fun i => ⟨UInt8.ofNat i :: List.replicate 31 0, rfl⟩

/-- **Parallel proof generation equals sequential proof generation, if on every level the tasks
run before `buf1 = buf2`**: there is an outcome, and it has the same root and the same proofs. -/
theorem proofGenParallelIn_eq (sha256 : Bytes → HashString) {leaves : List HashString}
    (htwo : 2 ≤ leaves.length) (numRoutines : Nat) {sched : Schedule}
    (hfirst : sched.TasksFirst sha256 numRoutines leaves (calTreeDepth leaves.length)) :
    proofGenParallelIn sha256 numRoutines sched (calTreeDepth leaves.length) leaves =
      some (proofGen sha256 (calTreeDepth leaves.length) leaves) := by
  have hdepth := depth_pos htwo
  obtain ⟨out, hrun, hout⟩ := proofGenParallelIn_generated hfirst htwo hdepth
  rw [hrun, hout.eq (proofGen_generated htwo hdepth)]

/-- A hundred leaves, and four routines: the pool runs the last task first. -/
theorem proofGenParallelIn_reversed :
    2 ≤ (numberedLeaves 100).length ∧
      (Schedule.after 0).TasksFirst lengthHash 4 (numberedLeaves 100)
        (calTreeDepth (numberedLeaves 100).length) ∧
      proofGenParallelIn lengthHash 4 (.after 0) (calTreeDepth (numberedLeaves 100).length)
          (numberedLeaves 100) =
        some (proofGen lengthHash (calTreeDepth (numberedLeaves 100).length)
          (numberedLeaves 100)) :=
  ⟨by simp [numberedLeaves], fun _ _ => Interleaving.tasksFirst_after _,
    proofGenParallelIn_eq lengthHash (by simp [numberedLeaves]) 4
      fun _ _ => Interleaving.tasksFirst_after _⟩

/-- A task that runs after the preparation of the next level: it hashes the buffer that it should
have written, and the root is that of a level of zeros. A task that runs right after
`buf1 = buf2` reads past its end. -/
theorem late_tasks_miss_the_level :
    (∃ out, proofGenParallelIn lengthHash 1 (.after 4) (calTreeDepth (numberedLeaves 4).length)
        (numberedLeaves 4) = some out ∧
      out.1 ≠ (proofGen lengthHash (calTreeDepth (numberedLeaves 4).length) (numberedLeaves 4)).1) ∧
      proofGenParallelIn lengthHash 1 (.after 1) (calTreeDepth (numberedLeaves 4).length)
        (numberedLeaves 4) = none := by
  have hdepth : calTreeDepth (numberedLeaves 4).length = 2 := rfl
  rw [hdepth]
  refine ⟨⟨_, rfl, ?_⟩, ?_⟩
  · decide
  · decide

end MassBFT.Replication.MerkleTree
