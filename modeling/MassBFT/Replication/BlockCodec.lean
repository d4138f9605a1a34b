import MassBFT.Lib.Overwrite
import MassBFT.Replication.Block
import MassBFT.Replication.Pieces

/-!
# Rewriting a serialized block

A block is serialized into a buffer that may hold something already, at a position, and its
parts are then replaced in place: the header when consensus has numbered it, the results and the
signatures when it has been executed. The three static writers of `proto::Block` do not know what
else stands in the buffer; they trust the positions that an earlier call has reported.

A buffer *spells* a block when its four sections stand there one after another, whatever is in
front of them and behind. Every writer keeps that, with the part it writes exchanged
(`Rewritten.spells`): a header is always 72 bytes long, so the body behind it is not touched, and
the other two write up to the end of the block. **After any number of rewrites the buffer decodes
to the block with the latest parts, and at the positions the writers have reported**, also when a
shorter part has left the tail of the old one behind.
-/

set_option autoImplicit false

namespace MassBFT.Replication

open List Block Codec

/-! ## Values of the format -/

/-- A sequence whose length fits the four bytes in front of it. -/
def AllFit {α : Type} (fits : α → Prop) (as : List α) : Prop :=
  as.length < 2 ^ 32 ∧ ∀ a ∈ as, fits a

def SignatureString.Fits (s : SignatureString) : Prop := s.ski.length < 2 ^ 32

def signaturePairFits (p : SignaturePair) : Prop := p.1.length < 2 ^ 32 ∧ p.2.Fits

def Header.Fits (h : Header) : Prop := h.number < 2 ^ 64

def Envelop.Fits (e : Envelop) : Prop := e.payload.length < 2 ^ 32 ∧ e.signature.Fits

def Body.Fits (b : Body) : Prop := AllFit Envelop.Fits b.userRequests

def KV.Fits (kv : KV) : Prop := kv.key.length < 2 ^ 32 ∧ kv.value.length < 2 ^ 32

def TxReadWriteSet.Fits (t : TxReadWriteSet) : Prop :=
  t.retValue.length < 2 ^ 32 ∧ IsInt32 t.retCode ∧ AllFit KV.Fits t.reads ∧ AllFit KV.Fits t.writes

def ExecuteResult.Fits (e : ExecuteResult) : Prop :=
  AllFit TxReadWriteSet.Fits e.txReadWriteSet ∧ e.transactionFilter.length < 2 ^ 32

def Metadata.Fits (m : Metadata) : Prop :=
  AllFit signaturePairFits m.consensusSignatures ∧ AllFit signaturePairFits m.validateSignatures

/-- Every number of the block is one of its C++ type, and every length fits the format. -/
structure Block.Fits (block : Block) : Prop where
  header : block.header.Fits
  body : block.body.Fits
  executeResult : block.executeResult.Fits
  metadata : block.metadata.Fits

section

variable {w : Wire} (hw : w.Inverts)
include hw

theorem AllFit.carries {α : Type} {fits : α → Prop} {c : Codec α} {as : List α}
    (h : AllFit fits as) (hc : ∀ a, fits a → c.Carries a) : (vector w c).Carries as :=
  hw.vector h.1 fun a ha => hc a (h.2 a ha)

theorem SignatureString.Fits.carries {s : SignatureString} (h : s.Fits) :
    (signatureString w).Carries s :=
  .conv (.pair (hw.string _ h) (carries_array _)) rfl

theorem signaturePairFits.carries {p : SignaturePair} (h : signaturePairFits p) :
    (signaturePair w).Carries p :=
  .pair (hw.string _ h.1) (h.2.carries hw)

theorem Header.Fits.carries {header : Header} (h : header.Fits) :
    (Header.codec w).Carries header :=
  .conv (.pair (hw.uint64 _ h)
    (.pair (carries_hash _) (carries_hash _))) rfl

theorem Envelop.Fits.carries {e : Envelop} (h : e.Fits) : (Envelop.codec w).Carries e :=
  .conv (.pair (hw.string _ h.1) (h.2.carries hw)) rfl

theorem Body.Fits.carries {body : Body} (h : body.Fits) : (Body.codec w).Carries body :=
  .conv (AllFit.carries hw h fun _ he => he.carries hw) rfl

theorem KV.Fits.carries {kv : KV} (h : kv.Fits) : (KV.codec w).Carries kv :=
  .conv (.pair (hw.string _ h.1) (hw.string _ h.2)) rfl

theorem TxReadWriteSet.Fits.carries {t : TxReadWriteSet} (h : t.Fits) :
    (TxReadWriteSet.codec w).Carries t := by
  obtain ⟨hvalue, hcode, hreads, hwrites⟩ := h
  have hkvs : ∀ {kvs : List KV}, AllFit KV.Fits kvs → (vector w (KV.codec w)).Carries kvs :=
    fun h => AllFit.carries hw h fun _ hkv => hkv.carries hw
  refine .conv (.pair (carries_array _) ?_) rfl
  refine .pair (hw.string _ hvalue) (.pair (hw.int32 _ hcode) ?_)
  exact .pair (hkvs hreads) (hkvs hwrites)

theorem ExecuteResult.Fits.carries {e : ExecuteResult} (h : e.Fits) :
    (ExecuteResult.codec w).Carries e := by
  have hsets := AllFit.carries hw h.1 fun _ ht => TxReadWriteSet.Fits.carries hw ht
  have hfilter := hw.vector h.2 fun b _ => carries_byte b
  exact .conv (.pair hsets hfilter) rfl

theorem Metadata.Fits.carries {m : Metadata} (h : m.Fits) : (Metadata.codec w).Carries m := by
  have hpairs : ∀ {ps : List SignaturePair}, AllFit signaturePairFits ps →
      (vector w (signaturePair w)).Carries ps :=
    fun h => AllFit.carries hw h fun _ hp => hp.carries hw
  exact .conv (.pair (hpairs h.1) (hpairs h.2)) rfl

/-- **A header has one width**, so another one fits in its place. -/
theorem Header.Fits.length {header : Header} (h : header.Fits) :
    ((Header.codec w).put header).length = 72 := by
  have hnumber := hw.width64 _ h
  have hprevious := header.previousHash.size
  have hdata := header.dataHash.size
  simp only [Header.codec, conv, pair, Wire.uint64, hashString, length_append]
  omega

end

/-! ## Reading and writing at a position -/

section

variable (w : Wire) (write : Bytes → Nat → Bytes → Bytes)

/-- `Block::deserializeFromString(pos)`, of a buffer that has been handed over. -/
def Block.deserializeFromStringAt (raw : Bytes) (pos : Nat) : Option (Block × PosList) :=
  -- `in.position()` when `rest` is still to be read
  let position := fun rest : Bytes => pos + ((raw.drop pos).length - rest.length)
  match (Header.codec w).get (raw.drop pos) with
  | none => none
  | some (header, rest₁) =>
    match (Body.codec w).get rest₁ with
    | none => none
    | some (body, rest₂) =>
      match (ExecuteResult.codec w).get rest₂ with
      | none => none
      | some (executeResult, rest₃) =>
        match (Metadata.codec w).get rest₃ with
        | none => none
        | some (metadata, rest₄) => some
          ({ header := header
             body := body
             executeResult := executeResult
             metadata := metadata
             storage := some raw },
           { headerPos := pos
             bodyPos := position rest₁
             execResultPos := position rest₂
             metadataPos := position rest₃
             endPos := position rest₄ })

/-- `Block::serializeToString(buf, pos)` -/
def Block.serializeToStringAt (block : Block) (buf : Bytes) (pos : Nat) : Bytes × PosList :=
  let header := (Header.codec w).put block.header
  let body := (Body.codec w).put block.body
  let executeResult := (ExecuteResult.codec w).put block.executeResult
  let metadata := (Metadata.codec w).put block.metadata
  let bodyPos := pos + header.length
  let execResultPos := bodyPos + body.length
  let metadataPos := execResultPos + executeResult.length
  let buf := write buf pos header
  let buf := write buf bodyPos body
  let buf := write buf execResultPos executeResult
  let buf := write buf metadataPos metadata
  (buf,
   { headerPos := pos
     bodyPos := bodyPos
     execResultPos := execResultPos
     metadataPos := metadataPos
     endPos := metadataPos + metadata.length })

/-- `Block::UpdateSerializedHeader`; the positions it does not know stay 0. -/
def Block.updateSerializedHeader (h : Header) (buf : Bytes) (headerPos : Nat) : Bytes × PosList :=
  let header := (Header.codec w).put h
  (write buf headerPos header,
   { headerPos := headerPos
     bodyPos := headerPos + header.length
     execResultPos := 0
     metadataPos := 0
     endPos := 0 })

/-- `Block::AppendSerializedExecutionResult` -/
def Block.appendSerializedExecutionResult (b : Block) (buf : Bytes) (execResultPos : Nat) :
    Bytes × PosList :=
  let executeResult := (ExecuteResult.codec w).put b.executeResult
  let metadata := (Metadata.codec w).put b.metadata
  let metadataPos := execResultPos + executeResult.length
  let buf := write buf execResultPos executeResult
  let buf := write buf metadataPos metadata
  (buf,
   { headerPos := 0
     bodyPos := 0
     execResultPos := execResultPos
     metadataPos := metadataPos
     endPos := metadataPos + metadata.length })

/-- `Block::AppendSerializedMetadata` -/
def Block.appendSerializedMetadata (m : Metadata) (buf : Bytes) (metadataPos : Nat) :
    Bytes × PosList :=
  let metadata := (Metadata.codec w).put m
  (write buf metadataPos metadata,
   { headerPos := 0
     bodyPos := 0
     execResultPos := 0
     metadataPos := metadataPos
     endPos := metadataPos + metadata.length })

end

/-- The positions of a block's sections when its header is at `pos`. -/
def Block.posList (w : Wire) (block : Block) (pos : Nat) : PosList where
  headerPos := pos
  bodyPos := pos + ((Header.codec w).put block.header).length
  execResultPos := pos + ((Header.codec w).put block.header).length +
    ((Body.codec w).put block.body).length
  metadataPos := pos + ((Header.codec w).put block.header).length +
    ((Body.codec w).put block.body).length +
    ((ExecuteResult.codec w).put block.executeResult).length
  endPos := pos + ((Header.codec w).put block.header).length +
    ((Body.codec w).put block.body).length +
    ((ExecuteResult.codec w).put block.executeResult).length +
    ((Metadata.codec w).put block.metadata).length

/-- The four sections stand in the buffer, each where the one in front of it ends. -/
structure Block.SpelledAt (w : Wire) (block : Block) (buf : Bytes) (pos : Nat) : Prop where
  header : Spells buf (block.posList w pos).headerPos ((Header.codec w).put block.header)
  body : Spells buf (block.posList w pos).bodyPos ((Body.codec w).put block.body)
  executeResult : Spells buf (block.posList w pos).execResultPos
    ((ExecuteResult.codec w).put block.executeResult)
  metadata : Spells buf (block.posList w pos).metadataPos ((Metadata.codec w).put block.metadata)

section

variable {w : Wire} {block : Block} {buf : Bytes} {pos : Nat}

theorem Block.SpelledAt.spells (h : block.SpelledAt w buf pos) :
    Spells buf pos (block.serializeToString w) := by
  rw [serializeToString, Spells.append_iff, Spells.append_iff, Spells.append_iff]
  exact ⟨h.header, h.body, h.executeResult, h.metadata⟩

/-- **What is spelled is read back**, with the positions of its sections. -/
theorem Block.SpelledAt.deserialize (h : block.SpelledAt w buf pos) (hw : w.Inverts)
    (hfits : block.Fits) : deserializeFromStringAt w buf pos =
      some ({ block with storage := some buf }, block.posList w pos) := by
  have hdrop := h.spells.drop_eq
  generalize buf.drop (pos + (block.serializeToString w).length) = rest at hdrop
  rw [serializeToString] at hdrop
  simp only [append_assoc] at hdrop
  have hheader := hfits.header.carries hw
  have hbody := hfits.body.carries hw
  have hresult := hfits.executeResult.carries hw
  have hmetadata := hfits.metadata.carries hw
  rw [deserializeFromStringAt, hdrop]
  dsimp only
  rw [hheader]
  dsimp only
  rw [hbody]
  dsimp only
  rw [hresult]
  dsimp only
  rw [hmetadata]
  simp only [posList, length_append, Option.some.injEq, Prod.mk.injEq, PosList.mk.injEq, true_and]
  omega

/-- From the front of the buffer it is `deserializeFromString` as the receivers call it. -/
theorem Block.deserializeFromStringAt_zero (raw : Bytes) :
    deserializeFromStringAt w raw 0 = deserializeFromString w raw := by
  simp only [deserializeFromStringAt, drop_zero, Nat.zero_add]
  rfl

end

/-! ## Every writer keeps the block spelled -/

section

variable {w : Wire} {write : Bytes → Nat → Bytes → Bytes} (hwrite : Overwrites write)
variable {block : Block} {buf : Bytes} {pos : Nat}
include hwrite

theorem Block.serializeToStringAt_spelled (block : Block) (buf : Bytes) (pos : Nat) :
    block.SpelledAt w (block.serializeToStringAt w write buf pos).1 pos := by
  -- each section is written in front of the next ones and survives them
  refine ⟨?_, ?_, ?_, hwrite.spells _ _ _⟩
  · refine hwrite.spells_before (hwrite.spells_before (hwrite.spells_before
      (hwrite.spells _ _ _) le_rfl) ?_) ?_
    · exact Nat.le_add_right _ _
    · exact (Nat.le_add_right _ _).trans (Nat.le_add_right _ _)
  · refine hwrite.spells_before (hwrite.spells_before (hwrite.spells _ _ _) le_rfl) ?_
    exact Nat.le_add_right _ _
  · exact hwrite.spells_before (hwrite.spells _ _ _) le_rfl

/-- Into an empty buffer it is `serializeToString` as the senders call it. -/
theorem Block.serializeToStringAt_empty (block : Block) :
    (block.serializeToStringAt w write [] 0).1 = block.serializeToString w := by
  refine Overwrites.eq_of_spells (block.serializeToStringAt_spelled hwrite [] 0).spells ?_
  simp only [serializeToStringAt, serializeToString, hwrite.length, length_append, length_nil]
  omega

theorem Block.SpelledAt.updateHeader (hw : w.Inverts) (h : block.SpelledAt w buf pos)
    (hfits : block.Fits) {header : Header} (hheader : header.Fits) :
    ({ block with header := header } : Block).SpelledAt w
      (updateSerializedHeader w write header buf pos).1 pos := by
  have hold := hfits.header.length hw
  have hnew := hheader.length hw
  obtain ⟨-, hbody, hresult, hmetadata⟩ := h
  simp only [posList, hold] at hbody hresult hmetadata
  refine ⟨hwrite.spells _ _ _, ?_, ?_, ?_⟩
  · simp only [posList, hnew]
    exact hwrite.spells_behind hbody (by rw [hnew])
  · simp only [posList, hnew]
    exact hwrite.spells_behind hresult (by rw [hnew]; exact Nat.le_add_right _ _)
  · simp only [posList, hnew]
    refine hwrite.spells_behind hmetadata ?_
    rw [hnew]
    exact (Nat.le_add_right _ _).trans (Nat.le_add_right _ _)

theorem Block.SpelledAt.appendExecutionResult (h : block.SpelledAt w buf pos) (b : Block) :
    ({ block with executeResult := b.executeResult, metadata := b.metadata } : Block).SpelledAt w
      (appendSerializedExecutionResult w write b buf
        (block.posList w pos).execResultPos).1 pos := by
  refine ⟨?_, ?_, ?_, hwrite.spells _ _ _⟩
  · refine hwrite.spells_before (hwrite.spells_before h.header ?_) ?_
    · exact Nat.le_add_right _ _
    · exact (Nat.le_add_right _ _).trans (Nat.le_add_right _ _)
  · refine hwrite.spells_before (hwrite.spells_before h.body le_rfl) ?_
    exact Nat.le_add_right _ _
  · exact hwrite.spells_before (hwrite.spells _ _ _) le_rfl

theorem Block.SpelledAt.appendMetadata (h : block.SpelledAt w buf pos) (m : Metadata) :
    ({ block with metadata := m } : Block).SpelledAt w
      (appendSerializedMetadata w write m buf (block.posList w pos).metadataPos).1 pos := by
  refine ⟨?_, ?_, ?_, hwrite.spells _ _ _⟩
  · refine hwrite.spells_before h.header ?_
    exact (Nat.le_add_right _ _).trans (Nat.le_add_right _ _)
  · exact hwrite.spells_before h.body (Nat.le_add_right _ _)
  · exact hwrite.spells_before h.executeResult le_rfl

end

/-! ## Any number of rewrites -/

/-- A buffer after `serializeToString` at `pos` and rewrites in place, each at the position that
is known for its part; the caller keeps the positions up to date. -/
inductive Rewritten (w : Wire) (write : Bytes → Nat → Bytes → Bytes) (pos : Nat) :
    Bytes → PosList → Block → Prop
  | serialized (block : Block) (buf : Bytes) (hfits : block.Fits) :
      Rewritten w write pos (block.serializeToStringAt w write buf pos).1
        (block.serializeToStringAt w write buf pos).2 block
  | header {buf : Bytes} {ps : PosList} {block : Block} (h : Rewritten w write pos buf ps block)
      (header : Header) (hfits : header.Fits) :
      Rewritten w write pos (updateSerializedHeader w write header buf ps.headerPos).1
        { ps with
          bodyPos := (updateSerializedHeader w write header buf ps.headerPos).2.bodyPos }
        { block with header := header }
  | executeResult {buf : Bytes} {ps : PosList} {block : Block}
      (h : Rewritten w write pos buf ps block) (b : Block) (hfits : b.Fits) :
      Rewritten w write pos
        (appendSerializedExecutionResult w write b buf ps.execResultPos).1
        { ps with
          metadataPos :=
            (appendSerializedExecutionResult w write b buf ps.execResultPos).2.metadataPos
          endPos := (appendSerializedExecutionResult w write b buf ps.execResultPos).2.endPos }
        { block with executeResult := b.executeResult, metadata := b.metadata }
  | metadata {buf : Bytes} {ps : PosList} {block : Block}
      (h : Rewritten w write pos buf ps block) (m : Metadata) (hfits : m.Fits) :
      Rewritten w write pos (appendSerializedMetadata w write m buf ps.metadataPos).1
        { ps with endPos := (appendSerializedMetadata w write m buf ps.metadataPos).2.endPos }
        { block with metadata := m }

namespace Rewritten

variable {w : Wire} {write : Bytes → Nat → Bytes → Bytes} {pos : Nat}
variable {buf : Bytes} {ps : PosList} {block : Block}

theorem fits (h : Rewritten w write pos buf ps block) : block.Fits := by
  induction h with
  | serialized _ _ hfits => exact hfits
  | header _ _ hfits ih => exact ⟨hfits, ih.body, ih.executeResult, ih.metadata⟩
  | executeResult _ _ hfits ih =>
    exact ⟨ih.header, ih.body, hfits.executeResult, hfits.metadata⟩
  | metadata _ _ hfits ih => exact ⟨ih.header, ih.body, ih.executeResult, hfits⟩

/-- The positions the caller keeps are those of the block as it is now. -/
theorem posList_eq (hw : w.Inverts) (h : Rewritten w write pos buf ps block) :
    ps = block.posList w pos := by
  induction h with
  | serialized block buf _ => rfl
  | header h header hfits ih =>
    have hold := h.fits.header.length hw
    have hnew := hfits.length hw
    subst ih
    simp only [posList, updateSerializedHeader, hold, hnew]
  | executeResult _ b _ ih =>
    subst ih
    rfl
  | metadata _ m _ ih =>
    subst ih
    rfl

theorem spells (hw : w.Inverts) (hwrite : Overwrites write)
    (h : Rewritten w write pos buf ps block) : block.SpelledAt w buf pos := by
  induction h with
  | serialized block buf _ => exact block.serializeToStringAt_spelled hwrite buf pos
  | header h header hfits ih =>
    rw [h.posList_eq hw]
    exact ih.updateHeader hwrite hw h.fits hfits
  | executeResult h b _ ih =>
    rw [h.posList_eq hw]
    exact ih.appendExecutionResult hwrite b
  | metadata h m _ ih =>
    rw [h.posList_eq hw]
    exact ih.appendMetadata hwrite m

/-- **Any number of rewrites is read back**, and reading reports the positions the caller has. -/
theorem deserialize (hw : w.Inverts) (hwrite : Overwrites write)
    (h : Rewritten w write pos buf ps block) : deserializeFromStringAt w buf pos =
      some ({ block with storage := some buf }, ps) := by
  have hread := (h.spells hw hwrite).deserialize hw h.fits
  rw [h.posList_eq hw]
  exact hread

end Rewritten

/-- **A serialized block can be rewritten part by part.** Whatever the buffer held, reading it at
the position gives back the block and the positions that were reported; after a new header, new
results and signatures, or new signatures alone, it gives the block with just these parts
exchanged. -/
theorem Block.rewrite_in_place {w : Wire} {write : Bytes → Nat → Bytes → Bytes} (hw : w.Inverts)
    (hwrite : Overwrites write) {block b : Block} {h : Header} (hblock : block.Fits)
    (hb : b.Fits) (hh : h.Fits) (buf : Bytes) (pos : Nat) :
    let (written, ps) := block.serializeToStringAt w write buf pos
    let (withHeader, hps) := updateSerializedHeader w write h written ps.headerPos
    let (withResult, rps) := appendSerializedExecutionResult w write b written ps.execResultPos
    let (withMetadata, mps) := appendSerializedMetadata w write b.metadata written ps.metadataPos
    deserializeFromStringAt w written pos = some ({ block with storage := some written }, ps) ∧
    deserializeFromStringAt w withHeader pos =
      some ({ block with header := h, storage := some withHeader },
        { ps with bodyPos := hps.bodyPos }) ∧
    deserializeFromStringAt w withResult pos =
      some ({ block with executeResult := b.executeResult, metadata := b.metadata,
                         storage := some withResult },
        { ps with metadataPos := rps.metadataPos, endPos := rps.endPos }) ∧
    deserializeFromStringAt w withMetadata pos =
      some ({ block with metadata := b.metadata, storage := some withMetadata },
        { ps with endPos := mps.endPos }) := by
  have hwritten := @Rewritten.serialized w write pos block buf hblock
  exact ⟨hwritten.deserialize hw hwrite, (hwritten.header h hh).deserialize hw hwrite,
    (hwritten.executeResult b hb).deserialize hw hwrite,
    (hwritten.metadata b.metadata hb.metadata).deserialize hw hwrite⟩

/-- A block without requests, with these results. -/
def resultsOnly (results : List TxReadWriteSet) : Block where
  header := ⟨1, default, default⟩
  body := ⟨[]⟩
  executeResult := ⟨results, [1]⟩
  metadata := ⟨[], []⟩
  storage := none

/-- A transaction that wrote nothing. -/
def emptyReadWriteSet : TxReadWriteSet where
  requestDigest := ⟨List.replicate 64 0, length_zeros⟩
  retValue := [7]
  retCode := -1
  reads := []
  writes := []

theorem resultsOnly_fits {results : List TxReadWriteSet}
    (h : AllFit TxReadWriteSet.Fits results) : (resultsOnly results).Fits where
  header := by norm_num [resultsOnly, Header.Fits]
  body := by simp [resultsOnly, Body.Fits, AllFit]
  executeResult := ⟨h, by norm_num [resultsOnly]⟩
  metadata := by simp [resultsOnly, Metadata.Fits, AllFit]

theorem emptyReadWriteSet_fits : emptyReadWriteSet.Fits := by
  simp [emptyReadWriteSet, TxReadWriteSet.Fits, AllFit, IsInt32]

/-- Shorter results leave the end of the old ones in the buffer, and are read back. -/
theorem Block.rewrite_in_place_shorter :
    let (written, ps) :=
      (resultsOnly [emptyReadWriteSet]).serializeToStringAt littleEndian (writeOver 0) [7, 7, 7] 2
    let (withResult, rps) := appendSerializedExecutionResult littleEndian (writeOver 0)
      (resultsOnly []) written ps.execResultPos
    rps.endPos < withResult.length ∧
      deserializeFromStringAt littleEndian withResult 2 =
        some ({ resultsOnly [] with storage := some withResult },
          { ps with metadataPos := rps.metadataPos, endPos := rps.endPos }) := by
  have hold : (resultsOnly [emptyReadWriteSet]).Fits :=
    resultsOnly_fits ⟨by simp, by simp [emptyReadWriteSet_fits]⟩
  have hnew : (resultsOnly []).Fits := resultsOnly_fits ⟨by simp, by simp⟩
  refine ⟨by decide +kernel, ?_⟩
  exact (rewrite_in_place littleEndian.inverts (overwrites_writeOver 0) hold hnew
    hnew.header [7, 7, 7] 2).2.2.1

end MassBFT.Replication
