import MassBFT.Replication.Instances

/-!
# The ring of fragment queues

`BlockReceiver::Buffer` has 256 queues; a fragment of block `n` goes into queue `n & 255`. Receiver
threads push into it, and one consumer calls `passiveGet` for one block after another. A push
compares the block number with the low mark twice before it enqueues, and **the low mark may
move in between**, so that a fragment can arrive in its queue long after its block is done.

`System` is the buffer with any number of receivers in the middle of a push and the consumer in
the middle of a call; `step` takes one of them one step further. What keeps blocks apart is that
the mark only grows: nothing in a queue is 256 or more above the mark (`Inv.slots`), so what shares
a queue with the block that is being read is not newer than that block.

`low+cap` is computed in `uint64_t`. In the last 256 block numbers it wraps around, and `get`
aborts; until then no check fails (`future_fragments_kept`).
-/

set_option autoImplicit false

namespace MassBFT.Replication

open Function List

/-! ## The buffer -/

/-- `Buffer<BufferBlock, 256>` -/
structure Buffer where
  low : Nat
  data : Nat → List EncodeBlockFragment

namespace Buffer

def cap : Nat := 256

variable (b : Buffer)

/-- `low+cap`, in `uint64_t`. -/
def high : Nat := (b.low + cap) % 2 ^ 64

/-- `data[blockNumber & mask]` -/
def queue (blockNumber : Nat) : List EncodeBlockFragment := b.data (blockNumber % cap)

/-- The last line of `push` -/
def enqueue (element : EncodeBlockFragment) : Buffer :=
  { b with
    data := update b.data (element.blockNumber % cap) (b.queue element.blockNumber ++ [element]) }

/-- Takes one element out of a queue. -/
def dequeue (blockNumber i : Nat) : Buffer :=
  { b with data := update b.data (blockNumber % cap) ((b.queue blockNumber).eraseIdx i) }

/-- The check of `get` -/
def InBounds (blockNumber : Nat) : Prop := ¬ (b.high ≤ blockNumber ∨ blockNumber < b.low)

instance (blockNumber : Nat) : Decidable (b.InBounds blockNumber) :=
  inferInstanceAs (Decidable (¬ (_ ∨ _)))

theorem queue_enqueue (element : EncodeBlockFragment) (n : Nat) :
    (b.enqueue element).queue n =
      if n % cap = element.blockNumber % cap then b.queue n ++ [element] else b.queue n := by
  simp only [queue, enqueue, update_apply]
  split_ifs with heq
  · rw [heq]
  · rfl

theorem queue_dequeue (blockNumber i n : Nat) :
    (b.dequeue blockNumber i).queue n =
      if n % cap = blockNumber % cap then (b.queue n).eraseIdx i else b.queue n := by
  simp only [queue, dequeue, update_apply]
  split_ifs with heq
  · rw [heq]
  · rfl

/-- Pushing a fragment adds it to the fragments of its block and to no others. -/
theorem filter_enqueue (element : EncodeBlockFragment) (n : Nat) :
    ((b.enqueue element).queue n).filter (fun e => e.blockNumber = n) =
      (b.queue n).filter (fun e => e.blockNumber = n) ++
        [element].filter fun e => e.blockNumber = n := by
  rw [queue_enqueue]
  split_ifs with heq
  · rw [filter_append]
  · have hne : element.blockNumber ≠ n := by
      rintro rfl
      exact heq rfl
    simp [hne]

/-- Taking a fragment of another block leaves those of block `n`. -/
theorem filter_dequeue {blockNumber i : Nat} {element : EncodeBlockFragment}
    (hget : (b.queue blockNumber)[i]? = some element) {n : Nat} (hne : element.blockNumber ≠ n) :
    ((b.dequeue blockNumber i).queue n).filter (fun e => e.blockNumber = n) =
      (b.queue n).filter fun e => e.blockNumber = n := by
  rw [queue_dequeue]
  split_ifs with heq
  · obtain ⟨hlt, hval⟩ := List.getElem?_eq_some_iff.mp hget
    have hqueue : b.queue n = b.queue blockNumber := by rw [queue, queue, heq]
    have hsplit : b.queue n = (b.queue n).take i ++ element :: (b.queue n).drop (i + 1) := by
      rw [hqueue, ← hval, cons_getElem_drop_succ, take_append_drop]
    rw [eraseIdx_eq_take_drop_succ]
    conv_rhs => rw [hsplit]
    simp [filter_append, hne]
  · rfl

end Buffer

/-! ## The threads -/

/-- Where a receiver is inside `push`. -/
inductive PushPhase where
  /-- The number is below `low+cap`. -/
  | bounded
  /-- It is not below `low` either. -/
  | current
  deriving DecidableEq

/-- Where the consumer is. -/
inductive Consumer (σ : Type) where
  | idle
  /-- In the loop of `genBlockFromQueue(number)`. -/
  | reading (number : Nat) (r : Receiving σ)
  /-- In `passiveGet(number)`, in front of `clearBelow`. -/
  | regenerated (number : Nat)
  /-- The call has not come back, or has come back without a block. -/
  | stopped

/-- The buffer and its threads. `next` is the number of the consumer's next call; what has been
enqueued, and what was taken out for which block, is written down. -/
structure System (σ : Type) where
  buffer : Buffer
  pushes : Nat → Option (EncodeBlockFragment × PushPhase)
  consumer : Consumer σ
  next : Nat
  kept : σ
  enqueued : List EncodeBlockFragment
  taken : List (Nat × EncodeBlockFragment)

/-- After `passiveStart(startAt)`. -/
def System.start {σ : Type} (startAt : Nat) (kept : σ) : System σ :=
  ⟨⟨startAt, fun _ => []⟩, fun _ => none, .idle, startAt, kept, [], []⟩

/-- What can happen next; `thread` is a receiver. -/
inductive RingEvent where
  | push (thread : Nat) (element : EncodeBlockFragment)
  | compareLow (thread : Nat)
  | enqueue (thread : Nat)
  /-- The consumer calls `genBlockFromQueue`, with so many contexts in the pool. -/
  | get (contexts : Nat)
  /-- It takes the `i`-th element of its queue. -/
  | take (i : Nat)
  | clearBelow
  | tearDown

/-- Why an event does not happen. -/
inductive RingStop where
  | disabled
  | checkFailed
  deriving DecidableEq

namespace System

variable {σ : Type} (br : BlockReceiver σ)

/-- A fragment has been taken for block `number`: one round of `genBlockFromQueue`. -/
def afterRound (s : System σ) (number : Nat) : Progress σ → System σ
  | .waiting r => { s with consumer := .reading number r }
  | .returned _ kept => { s with consumer := .regenerated number, kept := kept }
  | .blocked => { s with consumer := .stopped }
  | .fault _ => { s with consumer := .stopped }

def step (s : System σ) : RingEvent → Except RingStop (System σ)
  | .push thread element =>
    if (s.pushes thread).isSome then .error .disabled
    -- `push` returns false
    else if s.buffer.high ≤ element.blockNumber then .ok s
    else .ok { s with pushes := update s.pushes thread (some (element, .bounded)) }
  | .compareLow thread =>
    match s.pushes thread with
    | some (element, .bounded) => .ok
      { s with
        -- a stale fragment is dropped, and `push` returns true
        pushes := update s.pushes thread
          (if element.blockNumber < s.buffer.low then none else some (element, .current)) }
    | _ => .error .disabled
  | .enqueue thread =>
    match s.pushes thread with
    | some (element, .current) => .ok
      { s with
        buffer := s.buffer.enqueue element
        pushes := update s.pushes thread none
        enqueued := s.enqueued ++ [element] }
    | _ => .error .disabled
  | .get contexts =>
    match s.consumer with
    | .idle =>
      if s.buffer.InBounds s.next then
        .ok { s with consumer := .reading s.next (.start contexts s.kept) }
      else .error .checkFailed
    | _ => .error .disabled
  | .take i =>
    match s.consumer with
    | .reading number r =>
      match (s.buffer.queue number)[i]? with
      | none => .error .disabled
      | some element => .ok (afterRound
        { s with
          buffer := s.buffer.dequeue number i
          taken := s.taken ++ [(number, element)] } number (br.round number r element))
    | _ => .error .disabled
  | .clearBelow =>
    match s.consumer with
    | .regenerated number =>
      if (s.buffer.low + 1) % 2 ^ 64 = (number + 1) % 2 ^ 64 then .ok
        { s with
          buffer := { s.buffer with low := (number + 1) % 2 ^ 64 }
          consumer := .idle
          next := (number + 1) % 2 ^ 64 }
      else .error .checkFailed
    | _ => .error .disabled
  | .tearDown =>
    match s.consumer with
    | .reading _ _ => .ok { s with consumer := .stopped }
    | _ => .error .disabled

/-- A whole run. -/
def run : System σ → List RingEvent → Except RingStop (System σ)
  | s, [] => .ok s
  | s, e :: events =>
    match s.step br e with
    | .error stop => .error stop
    | .ok s => run s events

/-! ## What holds in every state -/

/-- The consumer reads the block at the mark, which is not one of the last 256 numbers. -/
def ConsumerOk (s : System σ) : Consumer σ → Prop
  | .idle => s.next = s.buffer.low
  | .reading number _ => number = s.buffer.low ∧ s.buffer.low + Buffer.cap < 2 ^ 64
  | .regenerated number => number = s.buffer.low ∧ s.buffer.low + Buffer.cap < 2 ^ 64
  | .stopped => True

/-- The consumer has not started on block `n`. -/
def Pending (s : System σ) (n : Nat) : Consumer σ → Prop
  | .idle => s.buffer.low ≤ n
  | .reading _ _ => s.buffer.low < n
  | .regenerated _ => s.buffer.low < n
  | .stopped => False

structure Inv (s : System σ) : Prop where
  low_lt : s.buffer.low < 2 ^ 64
  consumer : s.ConsumerOk s.consumer
  pushes : ∀ thread element phase, s.pushes thread = some (element, phase) →
    element.blockNumber < s.buffer.low + Buffer.cap
  slots : ∀ i, ∀ element ∈ s.buffer.data i, element.blockNumber % Buffer.cap = i ∧
    element.blockNumber < s.buffer.low + Buffer.cap
  pending : ∀ n, s.Pending n s.consumer →
    (s.buffer.queue n).filter (fun element => element.blockNumber = n) =
      s.enqueued.filter fun element => element.blockNumber = n
  taken : ∀ number element, (number, element) ∈ s.taken → element.blockNumber ≤ number

theorem inv_start {startAt : Nat} (h : startAt < 2 ^ 64) (kept : σ) : (start startAt kept).Inv where
  low_lt := h
  consumer := rfl
  pushes _ _ _ hsome := by cases hsome
  slots _ _ hmem := by cases hmem
  pending _ _ := rfl
  taken _ _ hmem := by cases hmem

variable {br} {s s' : System σ} {element : EncodeBlockFragment}

/-- **What is in the queue of the block at the mark is not newer than that block.** -/
theorem Inv.le_low (h : s.Inv)
    (hmem : element ∈ s.buffer.queue s.buffer.low) : element.blockNumber ≤ s.buffer.low := by
  obtain ⟨hmod, hlt⟩ := h.slots _ element hmem
  rw [Buffer.cap] at hmod hlt
  omega

/-! ## The receivers' steps -/

/-- A thread moves on inside `push`. -/
theorem Inv.setPush (h : s.Inv) (thread : Nat) {p : Option (EncodeBlockFragment × PushPhase)}
    (hp : ∀ element phase, p = some (element, phase) →
      element.blockNumber < s.buffer.low + Buffer.cap) :
    Inv { s with pushes := update s.pushes thread p } := by
  refine { h with pushes := fun t element phase ht => ?_ }
  dsimp only at ht ⊢
  by_cases hthread : t = thread
  · subst hthread
    rw [update_self] at ht
    exact hp element phase ht
  · rw [update_of_ne hthread] at ht
    exact h.pushes t element phase ht

theorem Inv.push (h : s.Inv) {thread : Nat}
    (hstep : s.step br (.push thread element) = .ok s') : s'.Inv := by
  rw [step] at hstep
  split_ifs at hstep with hbusy hhigh
  · cases hstep
    exact h
  · cases hstep
    refine h.setPush thread fun element' phase hp => ?_
    cases hp
    -- a sum that wraps around is only smaller
    exact lt_of_lt_of_le (Nat.lt_of_not_le hhigh) (Nat.mod_le _ _)

theorem Inv.compareLow (h : s.Inv) {thread : Nat}
    (hstep : s.step br (.compareLow thread) = .ok s') : s'.Inv := by
  rw [step] at hstep
  split at hstep
  · rename_i element hpush
    cases hstep
    refine h.setPush thread fun element' phase hp => ?_
    split_ifs at hp
    cases hp
    exact h.pushes thread _ _ hpush
  · cases hstep

theorem Inv.enqueue (h : s.Inv) {thread : Nat}
    (hstep : s.step br (.enqueue thread) = .ok s') : s'.Inv := by
  rw [step] at hstep
  split at hstep
  · rename_i element hpush
    cases hstep
    have hbelow := h.pushes thread element _ hpush
    have hdone := h.setPush thread (p := none) (by simp)
    refine { hdone with slots := fun i e he => ?_, pending := fun n hn => ?_ }
    · dsimp only [Buffer.enqueue] at he ⊢
      by_cases hi : i = element.blockNumber % Buffer.cap
      · subst hi
        rw [update_self, mem_append, mem_singleton] at he
        rcases he with he | rfl
        · exact h.slots _ e he
        · exact ⟨rfl, hbelow⟩
      · rw [update_of_ne hi] at he
        exact h.slots i e he
    · dsimp only
      rw [Buffer.filter_enqueue, h.pending n hn, filter_append]
  · cases hstep

/-! ## The consumer's steps -/

theorem Inv.get (h : s.Inv) {contexts : Nat} (hstep : s.step br (.get contexts) = .ok s') :
    s'.Inv := by
  rw [step] at hstep
  split at hstep
  · rename_i hidle
    have hnext := h.consumer
    rw [hidle] at hnext
    split_ifs at hstep with hbounds
    cases hstep
    have hlow := h.low_lt
    have hpending := h.pending
    rw [hidle] at hpending
    refine { h with consumer := ⟨hnext, ?_⟩, pending := fun n hn => hpending n (le_of_lt hn) }
    -- the mark is below the sum only if the sum does not wrap around
    change s.next = s.buffer.low at hnext
    rw [Buffer.InBounds, Buffer.high, Buffer.cap, hnext] at hbounds
    change s.buffer.low + 256 < 2 ^ 64
    omega
  · cases hstep

/-- What a round of `genBlockFromQueue` comes to does not matter for the buffer. -/
theorem Inv.afterRound {number : Nat} {r : Receiving σ} (h : s.Inv)
    (hreading : s.consumer = .reading number r) (p : Progress σ) : (s.afterRound number p).Inv := by
  have hconsumer := h.consumer
  have hpending := h.pending
  rw [hreading] at hconsumer hpending
  cases p with
  | waiting r' => exact { h with consumer := hconsumer, pending := hpending }
  | returned msg kept => exact { h with consumer := hconsumer, pending := hpending }
  | blocked => exact { h with consumer := trivial, pending := fun _ hn => hn.elim }
  | fault e => exact { h with consumer := trivial, pending := fun _ hn => hn.elim }

theorem Inv.take (h : s.Inv) {i : Nat} (hstep : s.step br (.take i) = .ok s') : s'.Inv := by
  rw [step] at hstep
  split at hstep
  · rename_i number r hreading
    split at hstep
    · cases hstep
    · rename_i element hget
      cases hstep
      have hconsumer := h.consumer
      rw [hreading] at hconsumer
      obtain ⟨rfl, -⟩ := hconsumer
      have hle := h.le_low (mem_of_getElem? hget)
      suffices hinv : Inv { s with
          buffer := s.buffer.dequeue s.buffer.low i
          taken := s.taken ++ [(s.buffer.low, element)] } from hinv.afterRound hreading _
      refine { h with slots := fun j e he => ?_, pending := fun n hn => ?_,
                      taken := fun k e he => ?_ }
      · dsimp only [Buffer.dequeue] at he ⊢
        by_cases hj : j = s.buffer.low % Buffer.cap
        · subst hj
          rw [update_self] at he
          exact h.slots _ e (mem_of_mem_eraseIdx he)
        · rw [update_of_ne hj] at he
          exact h.slots j e he
      · dsimp only at hn ⊢
        rw [← h.pending n hn]
        refine Buffer.filter_dequeue _ hget ?_
        rw [hreading] at hn
        change s.buffer.low < n at hn
        omega
      · dsimp only at he
        rcases mem_append.mp he with he | he
        · exact h.taken k e he
        · cases mem_singleton.mp he
          exact hle
  · cases hstep

theorem Inv.clearBelow (h : s.Inv) (hstep : s.step br .clearBelow = .ok s') : s'.Inv := by
  rw [step] at hstep
  split at hstep
  · rename_i number hregenerated
    have hconsumer := h.consumer
    have hpending := h.pending
    rw [hregenerated] at hconsumer hpending
    obtain ⟨rfl, hlow⟩ := hconsumer
    have hnext : (s.buffer.low + 1) % 2 ^ 64 = s.buffer.low + 1 := by
      rw [Buffer.cap] at hlow
      omega
    rw [if_pos rfl, hnext] at hstep
    cases hstep
    rw [Buffer.cap] at hlow
    refine ⟨?_, rfl, fun t element phase ht => ?_, fun i e he => ?_, fun n hn => ?_, h.taken⟩
    · dsimp only
      omega
    · exact (h.pushes t element phase ht).trans (Nat.add_lt_add_right (Nat.lt_succ_self _) _)
    · obtain ⟨hmod, hlt⟩ := h.slots i e he
      exact ⟨hmod, hlt.trans (Nat.add_lt_add_right (Nat.lt_succ_self _) _)⟩
    · exact hpending n hn
  · cases hstep

theorem Inv.tearDown (h : s.Inv) (hstep : s.step br .tearDown = .ok s') : s'.Inv := by
  rw [step] at hstep
  split at hstep
  · cases hstep
    exact { h with consumer := trivial, pending := fun _ hn => hn.elim }
  · cases hstep

/-! ## Runs -/

theorem Inv.step (h : s.Inv) {e : RingEvent} (hstep : s.step br e = .ok s') : s'.Inv := by
  cases e with
  | push thread element => exact h.push hstep
  | compareLow thread => exact h.compareLow hstep
  | enqueue thread => exact h.enqueue hstep
  | get contexts => exact h.get hstep
  | take i => exact h.take hstep
  | clearBelow => exact h.clearBelow hstep
  | tearDown => exact h.tearDown hstep

theorem Inv.run (h : s.Inv) {events : List RingEvent} (hrun : s.run br events = .ok s') :
    s'.Inv := by
  induction events generalizing s with
  | nil =>
    cases hrun
    exact h
  | cons e events ih =>
    rw [System.run] at hrun
    cases hstep : s.step br e with
    | error stop => rw [hstep] at hrun; cases hrun
    | ok s₁ =>
      rw [hstep] at hrun
      exact ih (h.step hstep) hrun

/-- The check of `get` holds at the mark exactly if the sum does not wrap around. -/
theorem Inv.inBounds_iff (h : s.Inv) : s.buffer.InBounds s.buffer.low ↔
    s.buffer.low + Buffer.cap < 2 ^ 64 := by
  have hlow := h.low_lt
  rw [Buffer.InBounds, Buffer.high, Buffer.cap]
  omega

/-- **A check fails exactly if the next call is for one of the last 256 block numbers.** -/
theorem Inv.check_fails_iff (h : s.Inv) (e : RingEvent) :
    s.step br e = .error .checkFailed ↔
      (∃ contexts, e = .get contexts) ∧ s.consumer = .idle ∧
        2 ^ 64 ≤ s.buffer.low + Buffer.cap := by
  constructor
  · intro hfail
    have hconsumer := h.consumer
    cases e with
    | push thread element =>
      rw [System.step] at hfail
      split_ifs at hfail
      cases hfail
    | compareLow thread =>
      rw [System.step] at hfail
      split at hfail <;> cases hfail
    | enqueue thread =>
      rw [System.step] at hfail
      split at hfail <;> cases hfail
    | get contexts =>
      rw [System.step] at hfail
      split at hfail
      · rename_i hidle
        rw [hidle] at hconsumer
        change s.next = s.buffer.low at hconsumer
        split_ifs at hfail with hbounds
        rw [hconsumer, h.inBounds_iff] at hbounds
        exact ⟨⟨contexts, rfl⟩, hidle, Nat.le_of_not_lt hbounds⟩
      · cases hfail
    | take i =>
      rw [System.step] at hfail
      split at hfail
      · split at hfail <;> cases hfail
      · cases hfail
    | clearBelow =>
      rw [System.step] at hfail
      split at hfail
      · rename_i number hregenerated
        rw [hregenerated] at hconsumer
        rw [hconsumer.1, if_pos rfl] at hfail
        cases hfail
      · cases hfail
    | tearDown =>
      rw [System.step] at hfail
      split at hfail <;> cases hfail
  · rintro ⟨⟨contexts, rfl⟩, hidle, hwraps⟩
    have hnext := h.consumer
    rw [hidle] at hnext
    change s.next = s.buffer.low at hnext
    simp only [System.step, hidle, hnext]
    rw [if_neg]
    rw [h.inBounds_iff]
    exact Nat.not_lt.mpr hwraps

/-- A fragment of another block does not get past the first check of the round. -/
theorem take_other {i number : Nat} {r : Receiving σ}
    (hreading : s.consumer = .reading number r) (hget : (s.buffer.queue number)[i]? = some element)
    (hne : element.blockNumber ≠ number) (hstep : s.step br (.take i) = .ok s') :
    s'.consumer = .reading number r := by
  simp only [step, hreading, hget, BlockReceiver.round, if_pos hne, afterRound] at hstep
  cases hstep
  rfl

end System

/-- **The ring keeps the fragments of future blocks, and keeps them apart.** -/
theorem future_fragments_kept {σ : Type} (br : BlockReceiver σ) {startAt : Nat}
    (hstart : startAt < 2 ^ 64) (kept : σ) (events : List RingEvent) (s : System σ)
    (hrun : (System.start startAt kept).run br events = .ok s) :
    (∀ e, s.step br e = .error .checkFailed ↔ (∃ contexts, e = .get contexts) ∧
      s.consumer = .idle ∧ 2 ^ 64 ≤ s.buffer.low + Buffer.cap) ∧
    (∀ number element, (number, element) ∈ s.taken → element.blockNumber ≤ number) ∧
    (∀ i number r element s', s.consumer = .reading number r →
      (s.buffer.queue number)[i]? = some element → element.blockNumber ≠ number →
      s.step br (.take i) = .ok s' → s'.consumer = .reading number r) ∧
    ∀ contexts s', s.step br (.get contexts) = .ok s' →
      (s.buffer.queue s.next).filter (fun element => element.blockNumber = s.next) =
        s.enqueued.filter fun element => element.blockNumber = s.next := by
  have hinv := (System.inv_start hstart kept).run hrun
  refine ⟨hinv.check_fails_iff, hinv.taken, fun i number r element s' => System.take_other, ?_⟩
  intro contexts s' hstep
  rw [System.step] at hstep
  split at hstep
  · rename_i hidle
    have hnext := hinv.consumer
    rw [hidle] at hnext
    refine hinv.pending s.next ?_
    rw [hidle]
    exact le_of_eq hnext.symm
  · cases hstep

/-- A receiver without a callback. -/
def ringReceiver : BlockReceiver Unit := ⟨lengthHash, littleEndian, splitCode 2, ⟨2, 0, 1, 1⟩, none⟩

/-- A fragment of a block, without content. -/
def fragmentOf (blockNumber : Nat) : EncodeBlockFragment :=
  ⟨[], blockNumber, lengthHash [], 0, 0, 0, []⟩

set_option maxRecDepth 10000 in
/-- Fragments of blocks 5 and 260 from two receivers at once, and the call for block 5. -/
theorem future_fragments_kept_five :
    let events : List RingEvent := [.push 0 (fragmentOf 5), .push 1 (fragmentOf 260),
      .compareLow 1, .enqueue 1, .compareLow 0, .enqueue 0]
    ∃ s s', (System.start 5 ()).run ringReceiver events = .ok s ∧
      s.step ringReceiver (.get 1) = .ok s' ∧
      (s.buffer.queue 5).filter (fun element => element.blockNumber = 5) = [fragmentOf 5] := by
  intro events
  refine ⟨_, _, rfl, rfl, ?_⟩
  exact (@future_fragments_kept Unit ringReceiver 5 (by norm_num) () events _ rfl).2.2.2 1 _ rfl

/-- The first call of a consumer that starts in the last 256 block numbers fails. -/
theorem get_fails_at_the_end :
    (System.start (2 ^ 64 - 256) ()).step ringReceiver (.get 1) = .error .checkFailed := by
  rw [System.step, System.start]
  exact if_neg (by norm_num [Buffer.InBounds, Buffer.high, Buffer.cap])

end MassBFT.Replication
