import MassBFT.Consensus.DeliveredChain

/-!
# The signature that goes with a proposal

`OnVerifyProposal` signs the header it is asked about and leaves the signature in a ring of ten;
`OnSignProposal` takes the oldest one out. The signature is left **before** the wait for the
batch, and a call that times out does not take it back. So the ring is not empty between two
proposals: it holds the signatures of the calls that timed out, or of the last proposals in
their place.

A signature is therefore handed out late, by as many signatures as calls have timed out since
the last leader change, modulo ten (`FollowerRun.signature_eq`): after ten timeouts the two ends
of the ring meet again. **A proposal gets its own signature exactly if the header that was signed
that many signatures before has the same one** (`own_signature_iff`).
-/

set_option autoImplicit false

namespace MassBFT.Consensus

open Function List Replication LocalConsensus Header

/-! ## The ring -/

namespace SignatureCache

/-- The ring after the signatures `sigs`, the last one first, of which all but `late` have been
answered by a `pop`: the last `late % 10` of them are in their slots. -/
structure Holds (c : SignatureCache) (sigs : List SignaturePair) (late : Nat) : Prop where
  back : c.back = sigs.length
  front : c.front + late = c.back
  recent : ∀ (k : Nat), k < late % 10 → c.signature ((c.back - (k + 1)) % 10) = sigs[k]?

theorem holds_reset : Holds .reset [] 0 := ⟨rfl, rfl, fun k hk => absurd hk (Nat.not_lt_zero k)⟩

variable {c : SignatureCache} {sigs : List SignaturePair} {late : Nat}

/-- A new signature does not touch the slots of the last nine. -/
theorem Holds.recent_push (h : Holds c sigs late) (sig : SignaturePair) {k : Nat}
    (hk : k ≤ late % 10) :
    (c.push sig).signature ((c.back + 1 - (k + 1)) % 10) = (sig :: sigs)[k]? := by
  have hback := h.back
  have hfront := h.front
  unfold push
  dsimp only
  cases k with
  | zero =>
    rw [Nat.zero_add, Nat.add_sub_cancel, update_self]
    rfl
  | succ k =>
    have hslot := h.recent k (by omega)
    have hne : (c.back + 1 - (k + 1 + 1)) % 10 ≠ c.back % 10 := by omega
    rw [update_of_ne hne, getElem?_cons_succ, ← hslot]
    congr 2
    omega

theorem Holds.push (h : Holds c sigs late) (sig : SignaturePair) :
    Holds (c.push sig) (sig :: sigs) (late + 1) := by
  have hback := h.back
  have hfront := h.front
  refine ⟨?_, ?_, fun k hk => h.recent_push sig (by omega)⟩
  · rw [length_cons, ← hback]
    rfl
  · change c.front + (late + 1) = c.back + 1
    omega

/-- **What a `push` and a `pop` give**: the signature of `late % 10` pushes before. -/
theorem Holds.push_pop (h : Holds c sigs late) (sig : SignaturePair) :
    (c.push sig).pop.1 = (sig :: sigs)[late % 10]? ∧
      Holds (c.push sig).pop.2 (sig :: sigs) late := by
  have hback := h.back
  have hfront := h.front
  have hslot := h.recent_push sig (le_refl (late % 10))
  have hindex : (c.back + 1 - (late % 10 + 1)) % 10 = c.front % 10 := by omega
  rw [hindex] at hslot
  obtain ⟨x, hx⟩ : ∃ x, (sig :: sigs)[late % 10]? = some x := by
    refine ⟨_, getElem?_eq_getElem ?_⟩
    rw [length_cons]
    omega
  have hpop : (c.push sig).pop = (some x,
      { c.push sig with
        front := c.front + 1
        signature := update (c.push sig).signature (c.front % 10) none }) := by
    have hfilled : (c.push sig).signature ((c.push sig).front % 10) = some x := hslot.trans hx
    rw [pop, hfilled]
    rfl
  rw [hpop, hx]
  refine ⟨rfl, ?_, ?_, fun k hk => ?_⟩
  · rw [length_cons, ← hback]
    rfl
  · change c.front + 1 + late = c.back + 1
    omega
  · -- the slot that was emptied is behind the last `late % 10`
    change update (c.push sig).signature (c.front % 10) none ((c.back + 1 - (k + 1)) % 10) = _
    rw [update_of_ne (by omega)]
    exact h.recent_push sig (by omega)

end SignatureCache

/-! ## Runs of a follower -/

/-- A call of `OnVerifyProposal` that has signed its header: it timed out, or returned `true` and
was followed by `OnSignProposal`, which returned `signature`. -/
inductive Proposal where
  | timedOut (serializedHeader : Bytes)
  | accepted (serializedHeader : Bytes) (signature : Option SignaturePair)

namespace Proposal

def serializedHeader : Proposal → Bytes
  | .timedOut serializedHeader => serializedHeader
  | .accepted serializedHeader _ => serializedHeader

def isTimedOut : Proposal → Bool
  | .timedOut _ => true
  | .accepted _ _ => false

/-- How many calls have timed out. -/
def late (proposals : List Proposal) : Nat := proposals.countP isTimedOut

@[simp] theorem late_timedOut (serializedHeader : Bytes) (ps : List Proposal) :
    late (.timedOut serializedHeader :: ps) = late ps + 1 :=
  countP_cons_of_pos rfl

@[simp] theorem late_accepted (serializedHeader : Bytes) (signature : Option SignaturePair)
    (ps : List Proposal) : late (.accepted serializedHeader signature :: ps) = late ps :=
  countP_cons_of_neg (by simp [isTimedOut])

/-- The header that was signed `k` signatures before this one. -/
def signedBefore (serializedHeader : Bytes) (older : List Proposal) (k : Nat) : Bytes :=
  (serializedHeader :: older.map Proposal.serializedHeader).getD k serializedHeader

end Proposal

/-- Batches come and blocks are delivered whatever the state of a proposal. -/
def Event.elsewhere : Event → Bool
  | .pushed _ => true
  | .refused => true
  | .delivered _ _ => true
  | _ => false

section

variable {Key : Type} (node : LocalNode Key)

/-- What happens to a replica besides the proposals. -/
inductive Meanwhile : LocalConsensus → LocalConsensus → Prop
  | refl (s : LocalConsensus) : Meanwhile s s
  | step {s s' s'' : LocalConsensus} {e : Event} (h : Meanwhile s s')
    (hstep : Step node s' e s'') (he : e.elsewhere = true) : Meanwhile s s''

/-- The runs of a follower, with the proposals it has signed since the last leader change, the last
one first. Proposals come one after another. The counters of the ring are of type `int`: no run
goes on with a counter that overflows. -/
inductive FollowerRun : List Proposal → LocalConsensus → Prop
  | start : FollowerRun [] .start
  | leaderChange {events : List Event} {s : LocalConsensus} (h : Reaches node events s) :
    FollowerRun [] (onLeaderChange s)
  | meanwhile {ps : List Proposal} {s s' : LocalConsensus} (h : FollowerRun ps s)
    (hm : Meanwhile node s s') : FollowerRun ps s'
  | rejected {ps : List Proposal} {s s' : LocalConsensus} {serializedHeader : Bytes}
    (h : FollowerRun ps s) (hcall : onVerifyProposal node s serializedHeader = (none, s')) :
    FollowerRun ps s'
  | timedOut {ps : List Proposal} {s s₁ s₂ : LocalConsensus} {serializedHeader : Bytes}
    {header : Header} (h : FollowerRun ps s) (hint : s.signatureCache.back + 1 < 2 ^ 31)
    (hcall : onVerifyProposal node s serializedHeader = (some header, s₁))
    (hm : Meanwhile node s₁ s₂) :
    FollowerRun (.timedOut serializedHeader :: ps) (loadTimeout s₂ header)
  | accepted {ps : List Proposal} {s s₁ s₂ s₃ s₄ : LocalConsensus} {serializedHeader : Bytes}
    {header : Header} (h : FollowerRun ps s) (hint : s.signatureCache.back + 1 < 2 ^ 31)
    (hcall : onVerifyProposal node s serializedHeader = (some header, s₁))
    (hm : Meanwhile node s₁ s₂) (hload : loadCachedBlock s₂ header = some s₃)
    (hm' : Meanwhile node s₃ s₄) :
    FollowerRun (.accepted serializedHeader (onSignProposal s₄).1 :: ps) (onSignProposal s₄).2

end

section

variable {Key : Type} {node : LocalNode Key} {ps : List Proposal} {s s' : LocalConsensus}
  {header : Header} {serializedHeader : Bytes}

/-- Neither the ring nor the calls that wait are touched elsewhere. -/
theorem Meanwhile.frame (h : Meanwhile node s s') :
    s'.signatureCache = s.signatureCache ∧ s'.verifying = s.verifying := by
  induction h with
  | refl => exact ⟨rfl, rfl⟩
  | step _ hstep he ih =>
    rw [← ih.1, ← ih.2]
    cases hstep with
    | push hpush =>
      obtain ⟨mt, -, rfl⟩ := pushUnorderedBlock_true hpush
      exact ⟨rfl, rfl⟩
    | refuse hpush =>
      rw [pushUnorderedBlock_false hpush]
      exact ⟨rfl, rfl⟩
    | deliver hdel =>
      obtain ⟨p, -, -, -, rfl⟩ := onDeliver_eq_some hdel
      exact ⟨rfl, rfl⟩
    | verify => cases he
    | load => cases he
    | timeout => cases he
    | sign => cases he
    | request => cases he
    | leaderStart => cases he
    | leaderChange => cases he

/-- A call is turned down before it has signed anything, or signs and waits. -/
theorem onVerifyProposal_cases (node : LocalNode Key) (s : LocalConsensus)
    (serializedHeader : Bytes) :
    onVerifyProposal node s serializedHeader = (none, s) ∨
      ∃ header pair, sign node serializedHeader = some pair ∧
        onVerifyProposal node s serializedHeader = (some header,
          { s with
            signatureCache := s.signatureCache.push pair
            verifying := header :: s.verifying }) := by
  unfold onVerifyProposal
  cases (codec node.wire).get serializedHeader with
  | none => exact Or.inl rfl
  | some read =>
    dsimp only
    by_cases hvalid : isDeliveredBlockHeaderValid node s read.1 = true
    · rw [if_neg (not_not.mpr hvalid)]
      cases hsign : sign node serializedHeader with
      | none => exact Or.inl rfl
      | some pair => exact Or.inr ⟨read.1, pair, rfl, rfl⟩
    · rw [if_pos hvalid]
      exact Or.inl rfl

theorem onVerifyProposal_rejected
    (h : onVerifyProposal node s serializedHeader = (none, s')) : s' = s := by
  rcases onVerifyProposal_cases node s serializedHeader with hnone | ⟨header, pair, -, hsome⟩
  · exact congrArg Prod.snd (h.symm.trans hnone)
  · cases h.symm.trans hsome

theorem onVerifyProposal_signed (h : onVerifyProposal node s serializedHeader = (some header, s')) :
    header ∈ s'.verifying ∧ ∃ pair, sign node serializedHeader = some pair ∧
      s'.signatureCache = s.signatureCache.push pair := by
  rcases onVerifyProposal_cases node s serializedHeader with hnone | ⟨header', pair, hsign, hsome⟩
  · cases h.symm.trans hnone
  · cases h.symm.trans hsome
    exact ⟨mem_cons_self, pair, hsign, rfl⟩

theorem loadCachedBlock_signatureCache (h : loadCachedBlock s header = some s') :
    s'.signatureCache = s.signatureCache := by
  unfold loadCachedBlock at h
  split at h
  · cases h
  · cases h
    rfl

/-- **The ring along a run**: it has the signatures of the proposals. -/
theorem FollowerRun.holds (h : FollowerRun node ps s) :
    ∃ sigs, sigs.map some = ps.map (fun p => sign node p.serializedHeader) ∧
      s.signatureCache.Holds sigs (Proposal.late ps) := by
  induction h with
  | start => exact ⟨[], rfl, SignatureCache.holds_reset⟩
  | leaderChange => exact ⟨[], rfl, SignatureCache.holds_reset⟩
  | meanwhile _ hm ih =>
    rw [hm.frame.1]
    exact ih
  | rejected _ hcall ih =>
    rw [onVerifyProposal_rejected hcall]
    exact ih
  | timedOut _ _ hcall hm ih =>
    obtain ⟨sigs, hsigs, hholds⟩ := ih
    obtain ⟨-, pair, hsign, hpush⟩ := onVerifyProposal_signed hcall
    refine ⟨pair :: sigs, ?_, ?_⟩
    · simp [hsigs, Proposal.serializedHeader, hsign]
    · have hcache := hm.frame.1.trans hpush
      rw [loadTimeout]
      dsimp only
      rw [hcache]
      rw [Proposal.late_timedOut]
      exact hholds.push pair
  | accepted _ _ hcall hm hload hm' ih =>
    obtain ⟨sigs, hsigs, hholds⟩ := ih
    obtain ⟨-, pair, hsign, hpush⟩ := onVerifyProposal_signed hcall
    refine ⟨pair :: sigs, ?_, ?_⟩
    · simp [hsigs, Proposal.serializedHeader, hsign]
    · have hcache := hm'.frame.1.trans
        ((loadCachedBlock_signatureCache hload).trans (hm.frame.1.trans hpush))
      rw [onSignProposal]
      dsimp only
      rw [hcache]
      rw [Proposal.late_accepted]
      exact (hholds.push_pop pair).2

/-- What `OnSignProposal` returns after an accepted call. -/
theorem FollowerRun.onSignProposal_eq {s₁ s₂ s₃ s₄ : LocalConsensus} (h : FollowerRun node ps s)
    (hcall : onVerifyProposal node s serializedHeader = (some header, s₁))
    (hm : Meanwhile node s₁ s₂) (hload : loadCachedBlock s₂ header = some s₃)
    (hm' : Meanwhile node s₃ s₄) :
    (onSignProposal s₄).1 =
      sign node (Proposal.signedBefore serializedHeader ps (Proposal.late ps % 10)) := by
  obtain ⟨sigs, hsigs, hholds⟩ := h.holds
  obtain ⟨-, pair, hsign, hpush⟩ := onVerifyProposal_signed hcall
  have hcache := hm'.frame.1.trans
    ((loadCachedBlock_signatureCache hload).trans (hm.frame.1.trans hpush))
  rw [onSignProposal]
  dsimp only
  rw [hcache, (hholds.push_pop pair).1]
  generalize hk : Proposal.late ps % 10 = k
  have hlen : k < ps.length + 1 := by
    have hfront := hholds.front
    have hback := hholds.back
    have hcount := congrArg List.length hsigs
    simp only [length_map] at hcount
    omega
  have hall : (pair :: sigs).map some =
      (serializedHeader :: ps.map Proposal.serializedHeader).map (sign node) := by
    simp [hsigs, hsign]
  have hget := congrArg (fun l => l[k]?) hall
  simp only [getElem?_map] at hget
  obtain ⟨b, hb⟩ : ∃ b, (serializedHeader :: ps.map Proposal.serializedHeader)[k]? = some b :=
    ⟨_, getElem?_eq_getElem (by simpa using hlen)⟩
  rw [Proposal.signedBefore, getD_eq_getElem?_getD, hb, Option.getD_some]
  rw [hb] at hget
  obtain ⟨x, hx, hsome⟩ := Option.map_eq_some_iff.mp hget
  rw [hx, hsome]

/-- **A signature is handed out as many signatures late as calls have timed out**, modulo ten. -/
theorem FollowerRun.signature_eq (h : FollowerRun node ps s) {newer older : List Proposal}
    {signature : Option SignaturePair}
    (hps : ps = newer ++ .accepted serializedHeader signature :: older) :
    signature =
      sign node (Proposal.signedBefore serializedHeader older (Proposal.late older % 10)) := by
  induction h generalizing newer with
  | start => simp at hps
  | leaderChange => simp at hps
  | meanwhile _ _ ih => exact ih hps
  | rejected _ _ ih => exact ih hps
  | timedOut _ _ _ _ ih =>
    cases newer with
    | nil => cases hps
    | cons p newer =>
      obtain ⟨-, htail⟩ := List.cons.inj hps
      exact ih htail
  | accepted hrun _ hcall hm hload hm' ih =>
    cases newer with
    | nil =>
      cases hps
      exact hrun.onSignProposal_eq hcall hm hload hm'
    | cons p newer =>
      obtain ⟨-, htail⟩ := List.cons.inj hps
      exact ih htail

/-- Every accepted call has been able to sign. -/
theorem FollowerRun.sign_isSome (h : FollowerRun node ps s) :
    ∀ p ∈ ps, (sign node p.serializedHeader).isSome = true := by
  obtain ⟨sigs, hsigs, -⟩ := h.holds
  intro p hp
  have hmem : sign node p.serializedHeader ∈ sigs.map some := by
    rw [hsigs]
    exact mem_map_of_mem hp
  obtain ⟨pair, -, hpair⟩ := mem_map.mp hmem
  rw [← hpair]
  rfl

theorem Meanwhile.reaches (h : Meanwhile node s s') {events : List Event}
    (hs : Reaches node events s) : ∃ events', Reaches node events' s' := by
  induction h with
  | refl => exact ⟨events, hs⟩
  | step _ hstep _ ih =>
    obtain ⟨events', hrun⟩ := ih
    exact ⟨_, hrun.step hstep⟩

/-- A call that waits while other things happen. -/
theorem Meanwhile.waits {s₁ s₂ : LocalConsensus}
    (hm : Meanwhile node s₁ s₂) {events : List Event} (hs : Reaches node events s)
    (hcall : onVerifyProposal node s serializedHeader = (some header, s₁)) :
    header ∈ s₂.verifying ∧ ∃ events', Reaches node events' s₂ := by
  rw [hm.frame.2]
  refine ⟨(onVerifyProposal_signed hcall).1, ?_⟩
  have hverify := hs.step (.verify s serializedHeader)
  rw [hcall] at hverify
  exact hm.reaches hverify

/-- A follower's run is a run of the replica. -/
theorem FollowerRun.reaches (h : FollowerRun node ps s) : ∃ events, Reaches node events s := by
  induction h with
  | start => exact ⟨[], .start⟩
  | leaderChange hrun => exact ⟨_, hrun.step (.leaderChange _)⟩
  | meanwhile _ hm ih =>
    obtain ⟨events, hrun⟩ := ih
    exact hm.reaches hrun
  | rejected _ hcall ih =>
    rw [onVerifyProposal_rejected hcall]
    exact ih
  | timedOut _ _ hcall hm ih =>
    obtain ⟨events, hrun⟩ := ih
    obtain ⟨hmem, events', hwait⟩ := hm.waits hrun hcall
    exact ⟨_, hwait.step (.timeout hmem)⟩
  | accepted _ _ hcall hm hload hm' ih =>
    obtain ⟨events, hrun⟩ := ih
    obtain ⟨hmem, events', hwait⟩ := hm.waits hrun hcall
    obtain ⟨events'', hloaded⟩ := hm'.reaches (hwait.step (.load hmem hload))
    exact ⟨_, hloaded.step (.sign _)⟩

end

/-! ## A timeout and a proposal -/

section

variable {ps : List Proposal} {s : LocalConsensus} {header : Header}

section

variable (h : FollowerRun plainNode ps s) (hlt : header.number < 2 ^ 64)
  (hint : s.signatureCache.back + 1 < 2 ^ 31) (hfirst : s.deliveredBlock = none)
include h hlt hint hfirst

theorem FollowerRun.time_out :
    ∃ s', FollowerRun plainNode (.timedOut ((codec plainNode.wire).put header) :: ps) s' ∧
      s'.deliveredBlock = none ∧ s'.isLeader = s.isLeader ∧
      s'.signatureCache.back = s.signatureCache.back + 1 := by
  have hvalid : isDeliveredBlockHeaderValid plainNode s header = true := by
    rw [isDeliveredBlockHeaderValid, hfirst]
  obtain ⟨pair, hcall⟩ := onVerifyProposal_waits (plainNode_get_put hlt) hvalid rfl
  exact ⟨_, h.timedOut hint hcall (.refl _), hfirst, rfl, rfl⟩

theorem FollowerRun.accept {p : Nat} (hcache : s.cache header.dataHash = some p) :
    ∃ signature s', FollowerRun plainNode
      (.accepted ((codec plainNode.wire).put header) signature :: ps) s' := by
  have hvalid : isDeliveredBlockHeaderValid plainNode s header = true := by
    rw [isDeliveredBlockHeaderValid, hfirst]
  obtain ⟨pair, hcall⟩ := onVerifyProposal_waits (plainNode_get_put hlt) hvalid rfl
  obtain ⟨s₃, hload⟩ : ∃ s₃, loadCachedBlock { s with
      signatureCache := s.signatureCache.push pair
      verifying := header :: s.verifying } header = some s₃ := by
    unfold loadCachedBlock
    dsimp only
    rw [hcache]
    exact ⟨_, rfl⟩
  exact ⟨_, _, h.accepted hint hcall (.refl _) hload (.refl _)⟩

end

/-- The batch of the sample comes. -/
theorem meanwhile_push (hfollower : s.isLeader = false) :
    Meanwhile plainNode s (s.storeBlock (batchBlock [signedRequest [1]] (plainDataHash [1]))) := by
  have hpush : pushUnorderedBlock plainNode s [signedRequest [1]] =
      (true, s.storeBlock (batchBlock [signedRequest [1]] (plainDataHash [1]))) := by
    rw [pushUnorderedBlock, hfollower]
    rfl
  exact (Meanwhile.refl s).step (.push hpush) rfl

/-- A header over the batch of the sample, and one over a batch that does not come. -/
def comingHeader : Header := ⟨1, default, plainDataHash [1]⟩

def missingHeader : Header := ⟨0, default, plainDataHash [2]⟩

/-- A call times out, and the batch of the sample comes before the next one. -/
theorem exists_after_timeout (hlt : header.number < 2 ^ 64) : ∃ signature s,
    FollowerRun plainNode [.accepted ((codec plainNode.wire).put comingHeader) signature,
      .timedOut ((codec plainNode.wire).put header)] s := by
  obtain ⟨s, hlate, hfirst, hfollower, hback⟩ :=
    @FollowerRun.time_out [] .start header .start hlt (by decide) rfl
  have hint : s.signatureCache.back + 1 < 2 ^ 31 := by
    rw [hback]
    decide
  exact @FollowerRun.accept _ _ comingHeader (hlate.meanwhile (meanwhile_push hfollower))
    (by decide) hint hfirst _ (storeBlock_cache s _)

end

/-! ## The signatures of a follower -/

/-- `OnSignProposal` has returned the signature over the header. -/
def IsSignature {Key : Type} (node : LocalNode Key) (serializedHeader : Bytes)
    (signature : Option SignaturePair) : Prop :=
  ∃ pair, sign node serializedHeader = some pair ∧ signature = some pair

/-- **The signatures that a follower hands out are those of its proposals exactly if, at every
accepted proposal, the header that was signed `n % 10` signatures before has the same signature**,
where `n` calls have timed out since the last leader change. -/
theorem own_signature_iff {Key : Type} {node : LocalNode Key} {ps : List Proposal}
    {s : LocalConsensus} (h : FollowerRun node ps s) :
    (∀ newer serializedHeader signature older,
        ps = newer ++ .accepted serializedHeader signature :: older →
        IsSignature node serializedHeader signature) ↔
      ∀ newer serializedHeader signature older,
        ps = newer ++ .accepted serializedHeader signature :: older →
        sign node (Proposal.signedBefore serializedHeader older (Proposal.late older % 10)) =
          sign node serializedHeader := by
  constructor
  · intro hown newer b signature older hps
    obtain ⟨pair, hsign, hsig⟩ := hown newer b signature older hps
    rw [← h.signature_eq hps, hsig, hsign]
  · intro hsame newer b signature older hps
    have hmem : .accepted b signature ∈ ps := by
      rw [hps]
      simp
    obtain ⟨pair, hpair⟩ := Option.isSome_iff_exists.mp (h.sign_isSome _ hmem)
    refine ⟨pair, hpair, ?_⟩
    rw [h.signature_eq hps, hsame newer b signature older hps]
    exact hpair

/-- The header of a call that has timed out is proposed once more. -/
theorem own_signature_again : ∃ signature s, FollowerRun plainNode
      [.accepted ((codec plainNode.wire).put comingHeader) signature,
        .timedOut ((codec plainNode.wire).put comingHeader)] s ∧
    IsSignature plainNode ((codec plainNode.wire).put comingHeader) signature := by
  obtain ⟨signature, s, hrun⟩ := @exists_after_timeout comingHeader (by decide)
  refine ⟨signature, s, hrun, (own_signature_iff hrun).mpr ?_ [] _ signature _ rfl⟩
  intro newer b sig older hps
  cases newer with
  | nil =>
    cases hps
    rfl
  | cons p newer =>
    have hmem : .accepted b sig ∈ [Proposal.timedOut ((codec plainNode.wire).put
        comingHeader)] := by
      rw [(List.cons.inj hps).2]
      simp
    simp at hmem

/-- A call has timed out: the next proposal gets the signature over the header of that call. -/
theorem late_signature : ∃ signature s, FollowerRun plainNode
      [.accepted ((codec plainNode.wire).put comingHeader) signature,
        .timedOut ((codec plainNode.wire).put missingHeader)] s ∧
    IsSignature plainNode ((codec plainNode.wire).put missingHeader) signature ∧
    ¬ IsSignature plainNode ((codec plainNode.wire).put comingHeader) signature := by
  obtain ⟨signature, s, hrun⟩ := @exists_after_timeout missingHeader (by decide)
  have hsig := @FollowerRun.signature_eq _ _ _ _ _ hrun [] _ _ rfl
  have hstale : Proposal.signedBefore ((codec plainNode.wire).put comingHeader)
      [.timedOut ((codec plainNode.wire).put missingHeader)]
      (Proposal.late [.timedOut ((codec plainNode.wire).put missingHeader)] % 10) =
      (codec plainNode.wire).put missingHeader := rfl
  rw [hstale] at hsig
  refine ⟨signature, s, hrun, ⟨_, rfl, hsig⟩, ?_⟩
  rintro ⟨pair, hpair, hown⟩
  have hsame : sign plainNode ((codec plainNode.wire).put missingHeader) =
      sign plainNode ((codec plainNode.wire).put comingHeader) :=
    hsig.symm.trans (hown.trans hpair.symm)
  revert hsame
  decide +kernel

end MassBFT.Consensus
