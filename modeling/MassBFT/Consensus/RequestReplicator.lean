import MassBFT.Consensus.DecidedHeader

/-!
# Batches from the leader to its followers

The leader collects requests, hands each batch to the consensus and sends it to its followers as
one message, the envelopes one after another. A follower reads the message back and hands the
same batch to its own consensus.

The batch under construction is kept from one message to the next. **A message that breaks off,
or that has too many envelopes, leaves what was read of it behind**, in front of the next batch;
and a batch that the callback rejects ends the receiving loop for good, although the leader, who
does not check the signatures of the users, may well have sent such a batch. A batch is rebuilt
exactly if nothing was left behind and the loop still runs (`batch_rebuilt_iff`).
-/

set_option autoImplicit false

namespace MassBFT.Consensus.RequestReplicator

open List Replication Envelop

/-! ## The leader -/

section

variable (w : Wire)

/-- The inner loop of `batchingFunction`. Each element is what one `wait_dequeue_bulk_timed` takes
off the queue, and whether the time is up afterwards; `none` if the batch is still open. -/
def collect (maxBatchSize : Nat) :
    List (List Envelop × Bool) → List Envelop → Bytes → Option (List Envelop × Bytes)
  | [], _, _ => none
  | (taken, timeUp) :: queue, unorderedRequests, serializedRequests =>
    let unorderedRequests := unorderedRequests ++ taken
    let serializedRequests := taken.foldl (fun buf e => buf ++ (codec w).put e) serializedRequests
    if unorderedRequests.length = 0 then
      collect maxBatchSize queue unorderedRequests serializedRequests
    else if unorderedRequests.length = maxBatchSize then
      some (unorderedRequests, serializedRequests)
    else if timeUp then some (unorderedRequests, serializedRequests)
    else collect maxBatchSize queue unorderedRequests serializedRequests

/-- No call takes more than there is room for. -/
def WithinRoom (maxBatchSize : Nat) : List (List Envelop × Bool) → Nat → Prop
  | [], _ => True
  | (taken, _) :: queue, size =>
    size + taken.length ≤ maxBatchSize ∧ WithinRoom maxBatchSize queue (size + taken.length)

end

/-! ## The follower -/

/-- How the loop over a message ends. -/
inductive Exit where
  | complete
  | maxSizeExceed
  | deserializeFailed
  deriving DecidableEq

/-- What one message meets: whether the follower has been told to stop, and what the batch callback
returns, if it is called. -/
structure Input where
  message : Bytes
  followerStopSignal : Bool
  accepted : Bool

/-- The variables of `followerFunction`: the first `currentBatchSize` entries of the vector, whose
size is `maxBatchSize` between two messages, and whether the receiving loop goes on. -/
structure Follower where
  unorderedRequests : List Envelop
  running : Bool
  deriving DecidableEq

section

variable (w : Wire) (maxBatchSize : Nat)

/-- `Envelop::deserializeFromString`, with the position behind the envelope as an `int`; `none` is
the result `-1`. -/
def deserializeFromString (buf : Bytes) (pos : Int) : Option (Envelop × Int) :=
  match (codec w).get (buf.drop pos.toNat) with
  | none => none
  | some (envelop, rest) => some (envelop, toInt32 (buf.length - rest.length))

/-- The loop over a message, with room for so many more envelopes. -/
def readEnvelops (message : Bytes) : Nat → Int → List Envelop × Exit
  | 0, pos => ([], if pos < toInt32 message.length then .maxSizeExceed else .complete)
  | room + 1, pos =>
    if pos < toInt32 message.length then
      match deserializeFromString w message pos with
      | none => ([], .deserializeFailed)
      | some (envelop, pos) =>
        if pos < 0 then ([], .deserializeFailed)
        else
          let rest := readEnvelops message room pos
          (envelop :: rest.1, rest.2)
    else ([], .complete)

/-- `batchingFunc`: the batch that the callback is given, if it is called. -/
def batchingFunc (unorderedRequests : List Envelop) (accepted : Bool) :
    Follower × Option (List Envelop) :=
  if unorderedRequests.length = 0 then (⟨unorderedRequests, true⟩, none)
  else (⟨[], accepted⟩, some unorderedRequests)

/-- `callback`, called by `ZMQInstance::receive` until it returns `false`. -/
def onMessage (st : Follower) (input : Input) : Follower × Option (List Envelop) :=
  if ¬ st.running then (st, none)
  else if input.followerStopSignal then ({ st with running := false }, none)
  else
    let read := readEnvelops w input.message (maxBatchSize - st.unorderedRequests.length) 0
    let unorderedRequests := st.unorderedRequests ++ read.1
    match read.2 with
    | .maxSizeExceed => (⟨unorderedRequests, true⟩, none)
    | .deserializeFailed => (⟨unorderedRequests, true⟩, none)
    | .complete => batchingFunc unorderedRequests input.accepted

/-- `followerFunction`, after some messages. -/
def followerFunction (inputs : List Input) : Follower :=
  inputs.foldl (fun st input => (onMessage w maxBatchSize st input).1) ⟨[], true⟩

end

/-! ## What the leader sends -/

section

variable {w : Wire} {maxBatchSize : Nat}

theorem foldl_append_put (taken : List Envelop) (buf : Bytes) :
    taken.foldl (fun buf e => buf ++ (codec w).put e) buf = buf ++ taken.flatMap (codec w).put := by
  induction taken generalizing buf with
  | nil => simp
  | cons e taken ih => rw [foldl_cons, ih, flatMap_cons, append_assoc]

/-- **The message of a batch is its envelopes one after another**, between one and
`maxBatchSize` of them. -/
theorem collect_eq_some {queue : List (List Envelop × Bool)} {pending batch : List Envelop}
    {buf message : Bytes} (hroom : WithinRoom maxBatchSize queue pending.length)
    (hbuf : buf = pending.flatMap (codec w).put)
    (h : collect w maxBatchSize queue pending buf = some (batch, message)) :
    message = batch.flatMap (codec w).put ∧ batch ≠ [] ∧ batch.length ≤ maxBatchSize := by
  induction queue generalizing pending buf with
  | nil => cases h
  | cons head queue ih =>
    obtain ⟨taken, timeUp⟩ := head
    obtain ⟨hfits, hrest⟩ := hroom
    have hlen : (pending ++ taken).length = pending.length + taken.length := length_append
    have hput : taken.foldl (fun buf e => buf ++ (codec w).put e) buf =
        (pending ++ taken).flatMap (codec w).put := by
      rw [foldl_append_put, hbuf, flatMap_append]
    rw [collect] at h
    rw [← hlen] at hrest hfits
    split_ifs at h with hempty hfull htime
    · exact ih hrest hput h
    · cases h
      exact ⟨hput, fun he => hempty (by rw [he]; rfl), hfits⟩
    · cases h
      exact ⟨hput, fun he => hempty (by rw [he]; rfl), hfits⟩
    · exact ih hrest hput h

end

/-! ## What a follower reads -/

section

variable {w : Wire} {maxBatchSize : Nat} {input : Input}

/-- A string that is read back takes some bytes. -/
theorem putString_ne_nil (hw : w.Inverts) {s : Bytes} (hs : s.length < 2 ^ 32) :
    w.putString s ≠ [] := by
  intro hnil
  -- Otherwise every byte string would be read as `s`.
  have hall : ∀ rest, w.getString rest = some (s, rest) := by
    intro rest
    have hget : w.getString (w.putString s ++ rest) = some (s, rest) := hw.string s hs rest
    rwa [hnil, nil_append] at hget
  have hother : ∀ t : Bytes, t.length < 2 ^ 32 → t = s := by
    intro t ht
    have hget : w.getString (w.putString t ++ []) = some (t, []) := hw.string t ht []
    rw [hall] at hget
    exact (congrArg Prod.fst (Option.some.inj hget)).symm
  have hempty := hother [] (by decide)
  have hone := hother [0] (by decide)
  rw [← hempty] at hone
  cases hone

theorem put_ne_nil (hw : w.Inverts) {e : Envelop} (he : e.Fits) : (codec w).put e ≠ [] :=
  append_ne_nil_of_left_ne_nil (putString_ne_nil hw he.1) _

/-- Reading an envelope that is there. -/
theorem deserializeFromString_eq (hw : w.Inverts) {front rest : Bytes} {e : Envelop} (he : e.Fits)
    (hlen : (front ++ ((codec w).put e ++ rest)).length < 2 ^ 31) :
    deserializeFromString w (front ++ ((codec w).put e ++ rest)) front.length =
      some (e, ((front ++ (codec w).put e).length : Int)) := by
  have hget : (codec w).get ((codec w).put e ++ rest) = some (e, rest) :=
    Envelop.Fits.carries hw he rest
  unfold deserializeFromString
  rw [Int.toNat_natCast, drop_left, hget]
  simp only [length_append] at hlen ⊢
  have hpos : front.length + (((codec w).put e).length + rest.length) - rest.length =
      front.length + ((codec w).put e).length := by omega
  rw [hpos, toInt32_natCast (by omega)]

/-- **Reading envelopes one after another**, as far as there is room. -/
theorem readEnvelops_flatMap (hw : w.Inverts) (es : List Envelop) (hes : ∀ e ∈ es, e.Fits)
    (front : Bytes) (room : Nat) (hlen : (front ++ es.flatMap (codec w).put).length < 2 ^ 31) :
    readEnvelops w (front ++ es.flatMap (codec w).put) room front.length =
      (es.take room, if es.length ≤ room then .complete else .maxSizeExceed) := by
  induction es generalizing front room with
  | nil =>
    rw [flatMap_nil, append_nil] at hlen ⊢
    have hend : ¬ ((front.length : Int) < toInt32 front.length) := by
      rw [toInt32_natCast hlen]
      exact lt_irrefl _
    cases room with
    | zero =>
      rw [readEnvelops, if_neg hend]
      rfl
    | succ room =>
      rw [readEnvelops, if_neg hend]
      rfl
  | cons e es ih =>
    have hput : 0 < ((codec w).put e).length :=
      length_pos_iff.mpr (put_ne_nil hw (hes e mem_cons_self))
    have hmore : (front.length : Int) <
        toInt32 (front ++ (e :: es).flatMap (codec w).put).length := by
      rw [toInt32_natCast hlen, flatMap_cons]
      simp only [length_append]
      omega
    cases room with
    | zero =>
      rw [readEnvelops, if_pos hmore]
      rfl
    | succ room =>
      rw [readEnvelops, if_pos hmore]
      rw [flatMap_cons] at hlen ⊢
      rw [deserializeFromString_eq hw (hes e mem_cons_self) hlen]
      dsimp only
      rw [if_neg (by omega)]
      rw [← append_assoc] at hlen ⊢
      rw [ih (fun e' he' => hes e' (mem_cons_of_mem e he')) _ room hlen]
      simp

/-- A message that is a batch of envelopes. -/
structure IsBatch (w : Wire) (message : Bytes) (es : List Envelop) : Prop where
  fits : ∀ e ∈ es, e.Fits
  bytes : message = es.flatMap (codec w).put
  size : message.length < 2 ^ 31

theorem IsBatch.readEnvelops (hw : w.Inverts) {message : Bytes} {es : List Envelop}
    (h : IsBatch w message es) (room : Nat) : readEnvelops w message room 0 =
      (es.take room, if es.length ≤ room then .complete else .maxSizeExceed) := by
  obtain ⟨hfits, rfl, hsize⟩ := h
  exact readEnvelops_flatMap hw es hfits [] room hsize

/-- What the callback is given for a batch behind what was left. -/
theorem onMessage_batch (hw : w.Inverts) {st : Follower} {es : List Envelop}
    (h : IsBatch w input.message es) (hrun : st.running = true)
    (hstop : input.followerStopSignal = false) :
    (st.unorderedRequests.length + es.length ≤ maxBatchSize → es ≠ [] →
      onMessage w maxBatchSize st input =
        (⟨[], input.accepted⟩, some (st.unorderedRequests ++ es))) ∧
    (maxBatchSize < st.unorderedRequests.length + es.length → es ≠ [] →
      (onMessage w maxBatchSize st input).2 = none) := by
  unfold onMessage
  rw [hrun, hstop, h.readEnvelops hw]
  dsimp only
  rw [if_neg (by decide), if_neg (by decide)]
  constructor
  · intro hroom hne
    rw [if_pos (by omega), take_of_length_le (by omega)]
    dsimp only
    rw [batchingFunc, if_neg]
    simp [hne]
  · intro hroom hne
    have hpos : 0 < es.length := length_pos_iff.mpr hne
    rw [if_neg (by omega)]

/-- The callback is called only while the loop runs. -/
theorem onMessage_stopped {st : Follower}
    (h : ¬ (st.running = true ∧ input.followerStopSignal = false)) :
    (onMessage w maxBatchSize st input).2 = none := by
  unfold onMessage
  by_cases hrun : st.running = true
  · have hstop : input.followerStopSignal = true := by
      rw [not_and, Bool.not_eq_false] at h
      exact h hrun
    rw [if_neg (not_not.mpr hrun), if_pos hstop]
  · rw [if_pos hrun]

/-- What a message may do if nothing is to be left behind and the loop is to go on: it is read to
its end, and the callback accepts what it is given; or it breaks off at once, behind nothing. -/
def Input.LeavesNothing (w : Wire) (maxBatchSize : Nat) (st : Follower) (input : Input) : Prop :=
  let read := readEnvelops w input.message (maxBatchSize - st.unorderedRequests.length) 0
  st.running = true ∧ input.followerStopSignal = false ∧
    if read.2 = .complete then st.unorderedRequests ++ read.1 = [] ∨ input.accepted = true
    else st.unorderedRequests ++ read.1 = []

theorem onMessage_leavesNothing {st : Follower} :
    ((onMessage w maxBatchSize st input).1.running = true ∧
        (onMessage w maxBatchSize st input).1.unorderedRequests = []) ↔
      input.LeavesNothing w maxBatchSize st := by
  rw [onMessage, Input.LeavesNothing]
  by_cases hrun : st.running = true
  · rw [if_neg (not_not.mpr hrun)]
    cases hstop : input.followerStopSignal with
    | true => simp
    | false =>
      generalize readEnvelops w input.message _ 0 = read
      obtain ⟨es, exit⟩ := read
      cases exit with
      | complete =>
        by_cases hempty : st.unorderedRequests ++ es = []
        · simp [batchingFunc, hempty, hrun]
        · have hlen : (st.unorderedRequests ++ es).length ≠ 0 := by
            rwa [Ne, length_eq_zero_iff]
          simp only [batchingFunc, hlen, hempty, hrun, if_false, if_true, Bool.false_eq_true,
            and_true, true_and, false_or]
      | maxSizeExceed => simp [hrun]
      | deserializeFailed => simp [hrun]
  · rw [if_pos hrun]
    simp [hrun]

/-- A batch that is within the limit and that the callback accepts. -/
structure Input.Regular (w : Wire) (maxBatchSize : Nat) (input : Input) : Prop where
  batch : ∃ es, IsBatch w input.message es ∧ es.length ≤ maxBatchSize
  going : input.followerStopSignal = false
  accepted : input.accepted = true

/-- What the leader sends is such a batch, if the follower accepts it. -/
theorem regular_of_collect {queue : List (List Envelop × Bool)} {batch : List Envelop}
    {message : Bytes} (hroom : WithinRoom maxBatchSize queue 0)
    (h : collect w maxBatchSize queue [] [] = some (batch, message))
    (hfits : ∀ e ∈ batch, e.Fits) (hsize : message.length < 2 ^ 31) :
    (⟨message, false, true⟩ : Input).Regular w maxBatchSize := by
  obtain ⟨hbytes, -, hmax⟩ := collect_eq_some hroom rfl h
  exact ⟨⟨batch, ⟨hfits, hbytes, hsize⟩, hmax⟩, rfl, rfl⟩

/-- Such a message leaves nothing behind. -/
theorem onMessage_regular (hw : w.Inverts) (h : input.Regular w maxBatchSize) :
    (onMessage w maxBatchSize ⟨[], true⟩ input).1 = ⟨[], true⟩ := by
  obtain ⟨⟨es, hbatch, hmax⟩, hgoing, haccepted⟩ := h
  by_cases hne : es = []
  · subst hne
    unfold onMessage
    rw [hgoing, hbatch.readEnvelops hw]
    simp [batchingFunc]
  · rw [((onMessage_batch hw hbatch rfl hgoing).1 (by simpa using hmax) hne), haccepted]

theorem followerFunction_regular (hw : w.Inverts) {inputs : List Input}
    (h : ∀ input ∈ inputs, input.Regular w maxBatchSize) :
    followerFunction w maxBatchSize inputs = ⟨[], true⟩ := by
  unfold followerFunction
  induction inputs with
  | nil => rfl
  | cons input inputs ih =>
    rw [foldl_cons, onMessage_regular hw (h input mem_cons_self)]
    exact ih fun i hi => h i (mem_cons_of_mem input hi)

end

/-! ## Batches that are rebuilt -/

/-- **A batch is rebuilt exactly if the loop still runs and no envelopes were left behind** by the
messages before it. After a message this is so exactly if it was read to its end and accepted, or
broke off at once, behind nothing; it is so if all of them are batches within the limit that the
callback accepts. -/
theorem batch_rebuilt_iff {w : Wire} (hw : w.Inverts) {maxBatchSize : Nat} (before : List Input)
    {input : Input} {es : List Envelop} (hbatch : IsBatch w input.message es) (hne : es ≠ [])
    (hmax : es.length ≤ maxBatchSize) :
    let st := followerFunction w maxBatchSize before
    ((onMessage w maxBatchSize st input).2 = some es ↔
      (st.running = true ∧ input.followerStopSignal = false) ∧ st.unorderedRequests = []) ∧
    (∀ earlier last, before = earlier ++ [last] →
      (st.running = true ∧ st.unorderedRequests = [] ↔
        last.LeavesNothing w maxBatchSize (followerFunction w maxBatchSize earlier))) ∧
    ((∀ earlier ∈ before, earlier.Regular w maxBatchSize) →
      st.running = true ∧ st.unorderedRequests = []) := by
  intro st
  refine ⟨⟨fun hcall => ?_, fun ⟨⟨hrun, hgoing⟩, hclean⟩ => ?_⟩, fun earlier last hlast => ?_,
    fun hregular => ?_⟩
  · by_cases hopen : st.running = true ∧ input.followerStopSignal = false
    · refine ⟨hopen, ?_⟩
      obtain ⟨hroom, hfull⟩ := @onMessage_batch w maxBatchSize input hw st es hbatch hopen.1 hopen.2
      by_cases hfits : st.unorderedRequests.length + es.length ≤ maxBatchSize
      · rw [hroom hfits hne] at hcall
        exact append_left_eq_self.mp (Option.some.inj hcall)
      · rw [hfull (by omega) hne] at hcall
        cases hcall
    · rw [onMessage_stopped hopen] at hcall
      cases hcall
  · have hcall := (@onMessage_batch w maxBatchSize input hw st es hbatch hrun hgoing).1
      (by simpa [hclean] using hmax) hne
    rw [hcall, hclean]
    rfl
  · have hst :
        st = (onMessage w maxBatchSize (followerFunction w maxBatchSize earlier) last).1 := by
      rw [show st = followerFunction w maxBatchSize before from rfl, hlast]
      exact foldl_concat _ _ _ _
    rw [hst]
    exact onMessage_leavesNothing
  · have hst : st = ⟨[], true⟩ := followerFunction_regular hw hregular
    rw [hst]
    exact ⟨rfl, rfl⟩

/-- The second of two batches of one request each. -/
theorem batch_rebuilt_second :
    let message := [signedRequest [1]].flatMap (codec littleEndian).put
    let before : List Input := [⟨message, false, true⟩]
    (onMessage littleEndian 1 (followerFunction littleEndian 1 before) ⟨message, false, true⟩).2 =
      some [signedRequest [1]] := by
  intro message before
  have hbatch : IsBatch littleEndian message [signedRequest [1]] := by
    refine ⟨fun e he => ?_, rfl, by decide +kernel⟩
    rw [mem_singleton.mp he]
    exact ⟨by decide, show [(0 : UInt8)].length < 2 ^ 32 by decide⟩
  have hregular : ∀ earlier ∈ before, earlier.Regular littleEndian 1 := by
    intro earlier he
    rw [mem_singleton.mp he]
    exact ⟨⟨_, hbatch, le_refl 1⟩, rfl, rfl⟩
  obtain ⟨hiff, -, hclean⟩ := @batch_rebuilt_iff littleEndian littleEndian.inverts 1 before
    ⟨message, false, true⟩ _ hbatch (cons_ne_nil _ _) (le_refl 1)
  obtain ⟨hrun, hempty⟩ := hclean hregular
  exact hiff.mpr ⟨⟨hrun, rfl⟩, hempty⟩

/-- A request with the signature of nobody. -/
def forgedRequest : Envelop := ⟨[1], ⟨[9], MRBlockReceiver.plainSign 9 []⟩⟩

/-- The batch of one request is not rebuilt after a batch with a forged signature, which a leader
accepts and a follower rejects; behind a message that breaks off it is handed over together with
the request that was read there; and after a message with too many requests it is dropped. -/
theorem not_every_batch_rebuilt :
    let request := signedRequest [2]
    let put := (codec littleEndian).put
    let next : Input := ⟨put request, false, true⟩
    ((LocalConsensus.pushUnorderedBlock plainNode (.onLeaderStart .start) [forgedRequest]).1 =
        true ∧
      (LocalConsensus.pushUnorderedBlock plainNode .start [forgedRequest]).1 = false ∧
      (onMessage littleEndian 2
        (followerFunction littleEndian 2 [⟨put forgedRequest, false, false⟩]) next).2 = none) ∧
    (onMessage littleEndian 2
        (followerFunction littleEndian 2 [⟨put (signedRequest [1]) ++ [0], false, true⟩]) next).2 =
      some [signedRequest [1], request] ∧
    (onMessage littleEndian 1
        (followerFunction littleEndian 1 [⟨put request ++ put request, false, true⟩]) next).2 =
      none := by
  decide +kernel

/-- **A follower that accepts what it gets is handed the batches of its leader**, each one as the
leader's loop has closed it. -/
theorem leader_batches_rebuilt {w : Wire} (hw : w.Inverts) {maxBatchSize : Nat}
    {before : List (List Envelop × Bytes)} {batch : List Envelop} {message : Bytes}
    (hsent : ∀ b ∈ before ++ [(batch, message)], ∃ queue, WithinRoom maxBatchSize queue 0 ∧
      collect w maxBatchSize queue [] [] = some b ∧ (∀ e ∈ b.1, e.Fits) ∧ b.2.length < 2 ^ 31) :
    (onMessage w maxBatchSize
      (followerFunction w maxBatchSize (before.map fun b => ⟨b.2, false, true⟩))
      ⟨message, false, true⟩).2 = some batch := by
  have hregular : ∀ input ∈ before.map fun b => (⟨b.2, false, true⟩ : Input),
      input.Regular w maxBatchSize := by
    intro input hi
    obtain ⟨b, hb, rfl⟩ := mem_map.mp hi
    obtain ⟨queue, hroom, hclosed, hfits, hsize⟩ := hsent b (mem_append_left _ hb)
    exact regular_of_collect hroom hclosed hfits hsize
  obtain ⟨queue, hroom, hclosed, hfits, hsize⟩ := hsent (batch, message) (by simp)
  obtain ⟨hbytes, hne, hmax⟩ := collect_eq_some hroom rfl hclosed
  have hbatch : IsBatch w message batch := ⟨hfits, hbytes, hsize⟩
  have hcall := (@onMessage_batch w maxBatchSize ⟨message, false, true⟩ hw ⟨[], true⟩ batch hbatch
    rfl rfl).1 (by simpa using hmax) hne
  rw [followerFunction_regular hw hregular, hcall]
  rfl

/-- A batch that is full, and one whose time is up. -/
theorem leader_batches_rebuilt_two :
    let put := (codec littleEndian).put
    let first := [signedRequest [1], signedRequest [2]]
    (onMessage littleEndian 2 (followerFunction littleEndian 2 [⟨first.flatMap put, false, true⟩])
      ⟨put (signedRequest [3]), false, true⟩).2 = some [signedRequest [3]] := by
  have hfits : ∀ n, (signedRequest [n]).Fits := fun n =>
    ⟨show [n].length < 2 ^ 32 by simp, show [(0 : UInt8)].length < 2 ^ 32 by decide⟩
  refine @leader_batches_rebuilt littleEndian littleEndian.inverts 2
    [([signedRequest [1], signedRequest [2]], _)] [signedRequest [3]] _ fun b hb => ?_
  rcases mem_cons.mp hb with rfl | hb
  · exact ⟨[([signedRequest [1]], false), ([signedRequest [2]], false)], by simp [WithinRoom], rfl,
      by simp [hfits], by decide +kernel⟩
  · cases mem_singleton.mp hb
    exact ⟨[([signedRequest [3]], true)], by simp [WithinRoom], rfl, by simp [hfits],
      by decide +kernel⟩

end MassBFT.Consensus.RequestReplicator
