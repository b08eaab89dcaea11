import Demars.Blockchain.Store

/-!
# What the block store gives back

What the store is for is a list of blocks, one for each height from 1 on. `Represents` says which records of the
database go with such a list, and what the loads give can be read off the list.
-/

namespace Demars.Blockchain

open Crash Table List Option

/-! ## The list of blocks behind a database -/

structure SavedBlock where
  block : Block
  header : Header
  parts : PartSet
  commit : Commit
  seenCommit : Commit

def partAt (parts : PartSet) (index : Int) : Option Part := if 0 ≤ index then (parts.parts[index.toNat]?).join else none

def blockAt (saved : List SavedBlock) (height : Int) : Option SavedBlock :=
  if 0 < height then saved[(height - 1).toNat]? else none

theorem blockAt_append (saved : List SavedBlock) (s : SavedBlock) (height : Int) :
    blockAt (saved ++ [s]) height = if height = saved.length + 1 then some s else blockAt saved height := by
  unfold blockAt
  split_ifs with hpos heq heq
  · rw [heq]
    simp
  · rw [getElem?_append]
    split_ifs with hlt
    · rfl
    · rw [getElem?_eq_none (by simp; omega), getElem?_eq_none (by omega)]
  · omega
  · rfl

section

variable (P : Primitives) (B : BlockCodec) (C : StoreCodec)

def requires (saved : List SavedBlock) : Record → Option Bytes
  | .blockMeta height =>
    some (((blockAt saved height).map fun s => C.blockMeta.enc (newBlockMeta P B s.block s.header s.parts)).getD [])
  | .part height index =>
    some (((blockAt saved height).bind fun s => (partAt s.parts index).map C.part.enc).getD [])
  | .commit height => some (((blockAt saved (height + 1)).map fun s => C.commit.enc s.commit).getD [])
  | .seenCommit height => some (((blockAt saved height).map fun s => C.commit.enc s.seenCommit).getD [])
  | .state => some (if saved = [] then [] else C.height.enc saved.length)
  | .bucket _ _ => none
  | .flush => none

def Represents (db : DB) (saved : List SavedBlock) : Prop :=
  ∀ r bz, requires P B C saved r = some bz → db r.key = bz

end

variable {P : Primitives} {B : BlockCodec} {C : StoreCodec} {db : DB} {saved : List SavedBlock}

theorem represents_empty : Represents P B C BlockStore.empty.db [] := by
  intro r bz h
  have hnone : ∀ height, blockAt [] height = none := fun height => by
    unfold blockAt
    split_ifs <;> rfl
  cases r <;> simp only [requires, hnone, Option.some.injEq, reduceCtorEq] at h <;> exact h

/-! ## The writes of a save -/

def partRecords (C : StoreCodec) (height : Int) (parts : PartSet) (n i : Nat) : List (Record × Bytes) :=
  (List.range' i n).map fun j : Nat => (.part height j, (((parts.parts[j]?).join).map C.part.enc).getD [])

def keyed (ws : List (Record × Bytes)) : List (Bytes × Bytes) := ws.map fun w => (w.1.key, w.2)

/-- The records after the parts, and how the save ends. -/
def restRecords (C : StoreCodec) (height : Int) : Option Commit → Option Commit →
    List (Record × Bytes) × Except StorePanic Int
  | none, _ => ([], .error .nilPointer)
  | some commit, none => ([(.commit (height - 1), C.commit.enc commit)], .error .nilPointer)
  | some commit, some seenCommit => ([(.commit (height - 1), C.commit.enc commit),
      (.seenCommit height, C.commit.enc seenCommit), (.state, C.height.enc height), (.flush, [])], .ok height)

theorem saveParts_writes (height : Int) (parts : PartSet) : ∀ (n i : Nat) (db : DB),
    (∀ j, i ≤ j → j < i + n → ((parts.parts[j]?).join).isSome = true) →
    Writes (saveParts C (height - 1) height parts n i) db (keyed (partRecords C height parts n i)) (.ok ())
  | 0, _, db, _ => writes_pure () db
  | n + 1, i, db, h => by
    obtain ⟨part, hpart⟩ := isSome_iff_exists.1 (h i le_rfl (by omega))
    have hrest := saveParts_writes height parts n (i + 1) (puts db [(calcBlockPartKey height i, C.part.enc part)])
      fun j hj hlt => h j (by omega) (by omega)
    have hfirst : Writes (saveBlockPart C (height - 1) height i (parts.parts[i]?).join) db
        [(calcBlockPartKey height i, C.part.enc part)] (.ok ()) := by
      unfold saveBlockPart
      rw [if_neg (by omega), hpart]
      exact Writes.lift_bind rfl (writes_set _ _ _)
    have hlist : keyed (partRecords C height parts (n + 1) i) =
        [(calcBlockPartKey height i, C.part.enc part)] ++ keyed (partRecords C height parts n (i + 1)) := by
      simp [keyed, partRecords, range'_succ, hpart, Record.key]
    rw [hlist]
    exact hfirst.bind hrest

theorem saveRest_writes (height : Int) (commit seenCommit : Option Commit) (db : DB) :
    Writes (saveRest C height commit seenCommit) db (keyed (restRecords C height commit seenCommit).1)
      (restRecords C height commit seenCommit).2 := by
  cases commit with
  | none => exact Writes.bind_error rfl
  | some commit =>
    refine Writes.lift_bind rfl ?_
    cases seenCommit with
    | none => exact Writes.set_bind (Writes.bind_error rfl)
    | some seenCommit =>
      exact Writes.set_bind
        (Writes.lift_bind rfl (Writes.set_bind (Writes.set_bind (Writes.set_bind (writes_pure _ _)))))

def blockRecords (P : Primitives) (B : BlockCodec) (C : StoreCodec) (block : Block) (header : Header)
    (parts : PartSet) :
    List (Record × Bytes) :=
  (.blockMeta header.height, C.blockMeta.enc (newBlockMeta P B block header parts)) ::
    partRecords C header.height parts parts.total.toNat 0

variable {block : Block} {header : Header} {parts : PartSet}

/-- A save that does not panic in its checks writes the meta, the parts and then the rest. -/
theorem saveBlock_writes {storeHeight : Int}
    (seenCommit : Option Commit) (hheader : block.header = some header) (hheight : header.height = storeHeight + 1)
    (hcomplete : parts.isComplete = true) (hwf : parts.Wf) (db : DB) :
    Writes (saveBlock P B C storeHeight (some block) (some parts) seenCommit) db
      (keyed (blockRecords P B C block header parts ++ (restRecords C header.height block.commit seenCommit).1))
      (restRecords C header.height block.commit seenCommit).2 := by
  refine Writes.lift_bind rfl (Writes.lift_bind (a := header) (by rw [hheader]; rfl) ?_)
  rw [if_neg (by omega)]
  refine Writes.lift_bind rfl ?_
  rw [if_neg (by simp [hcomplete])]
  have hstore : storeHeight = header.height - 1 := by omega
  rw [hstore]
  have hp := saveParts_writes (C := C) header.height parts parts.total.toNat 0
    (Function.update db (calcBlockMetaKey header.height) (C.blockMeta.enc (newBlockMeta P B block header parts)))
    fun j _ hj => by
      obtain ⟨part, hpart⟩ := hwf.exists_part hcomplete (show (j : Int) < parts.total by omega)
      rw [hpart]
      rfl
  have hlist : ∀ rest, keyed (blockRecords P B C block header parts ++ rest) =
      (calcBlockMetaKey header.height, C.blockMeta.enc (newBlockMeta P B block header parts)) ::
        (keyed (partRecords C header.height parts parts.total.toNat 0) ++ keyed rest) := fun rest => by
    simp [keyed, blockRecords, Record.key]
  rw [hlist]
  exact Writes.set_bind (hp.bind (saveRest_writes _ _ _ _))

theorem BlockStore.call_saveBlock (bs : BlockStore) {commit : Commit}
    (seenCommit : Commit) (hheader : block.header = some header) (hheight : header.height = bs.height + 1)
    (hcomplete : parts.isComplete = true) (hwf : parts.Wf) (hcommit : block.commit = some commit) :
    ∃ bs', bs.call P B C (.saveBlock (some block) (some parts) (some seenCommit)) = some bs' ∧
      bs'.height = header.height := by
  have hwrites := saveBlock_writes (P := P) (B := B) (C := C) (some seenCommit) hheader hheight hcomplete hwf bs.db
  rw [hcommit] at hwrites
  refine ⟨⟨header.height, (saveBlock P B C bs.height (some block) (some parts) (some seenCommit)).final bs.db⟩, ?_, rfl⟩
  simp only [BlockStore.call, hwrites.snd, restRecords, Except.toOption, map_some]

/-- A save that panics in its checks, or the arguments of one that does not. -/
theorem saveBlock_cases (storeHeight : Int) (block : Option Block) (parts : Option PartSet) (seenCommit : Option Commit)
    (db : DB) : (∃ e, Writes (saveBlock P B C storeHeight block parts seenCommit) db [] (.error e)) ∨
      ∃ b header ps, block = some b ∧ b.header = some header ∧ parts = some ps ∧ header.height = storeHeight + 1 ∧
        ps.isComplete = true := by
  cases block with
  | none => exact .inl ⟨_, Writes.bind_error rfl⟩
  | some b =>
    cases hheader : b.header with
    | none => exact .inl ⟨_, Writes.lift_bind rfl (Writes.bind_error (by rw [hheader]; rfl))⟩
    | some header =>
      by_cases hheight : header.height = storeHeight + 1
      · cases parts with
        | none =>
          refine .inl ⟨.nilPointer, Writes.lift_bind rfl (Writes.lift_bind (a := header) (by rw [hheader]; rfl) ?_)⟩
          rw [if_neg (not_not.2 hheight)]
          exact Writes.bind_error rfl
        | some ps =>
          cases hcomplete : ps.isComplete with
          | false =>
            refine .inl ⟨.incomplete, Writes.lift_bind rfl (Writes.lift_bind (a := header) (by rw [hheader]; rfl) ?_)⟩
            rw [if_neg (not_not.2 hheight)]
            refine Writes.lift_bind (a := ps) rfl ?_
            rw [if_pos hcomplete]
            exact writes_stop _ _
          | true => exact .inr ⟨b, header, ps, rfl, hheader, rfl, hheight, hcomplete⟩
      · refine .inl ⟨.notContiguous (storeHeight + 1) header.height,
          Writes.lift_bind rfl (Writes.lift_bind (a := header) (by rw [hheader]; rfl) ?_)⟩
        rw [if_pos hheight]
        exact writes_stop _ _

/-! ## Saving a block adds it to the list -/

def SavedBlock.records (P : Primitives) (B : BlockCodec) (C : StoreCodec) (s : SavedBlock) : List (Record × Bytes) :=
  blockRecords P B C s.block s.header s.parts ++ (restRecords C s.header.height (some s.commit) (some s.seenCommit)).1

variable {height : Int} {w : Record × Bytes}

theorem mem_partRecords {n : Nat} : w ∈ partRecords C height parts n 0 ↔
      ∃ j : Nat, j < n ∧ w = (.part height j, (((parts.parts[j]?).join).map C.part.enc).getD []) := by
  simp [partRecords, eq_comm]

theorem partAt_natCast (parts : PartSet) (j : Nat) : partAt parts j = (parts.parts[j]?).join := by simp [partAt]

theorem partAt_eq_none (hwf : parts.Wf) {index : Int} (h : ∀ j : Nat, (j : Int) < parts.total → index ≠ j) :
    partAt parts index = none := by
  unfold partAt
  split_ifs with hpos
  · have htotal := hwf.total
    have hne := h index.toNat
    rw [getElem?_eq_none (by omega), join_none]
  · rfl

theorem requires_of_mem_records {s : SavedBlock} (hheight : s.header.height = saved.length + 1)
    (hw : w ∈ s.records P B C) {bz : Bytes} (h : requires P B C (saved ++ [s]) w.1 = some bz) : w.2 = bz := by
  have hat : blockAt (saved ++ [s]) s.header.height = some s := by rw [blockAt_append, if_pos hheight]
  simp only [SavedBlock.records, blockRecords, cons_append, mem_cons, mem_append, mem_partRecords,
    restRecords, not_mem_nil, or_false] at hw
  rcases hw with rfl | ⟨j, -, rfl⟩ | rfl | rfl | rfl | rfl
  · simpa [requires, hat] using h
  · simpa [requires, hat, partAt_natCast] using h
  · simpa [requires, hat] using h
  · simpa [requires, hat] using h
  · simpa [requires, hheight] using h
  · cases h

theorem requires_of_not_mem_records {s : SavedBlock} (hheight : s.header.height = saved.length + 1) (hwf : s.parts.Wf)
    {r : Record} (h : ∀ w ∈ s.records P B C, w.1 ≠ r) : requires P B C (saved ++ [s]) r = requires P B C saved r := by
  simp only [SavedBlock.records, blockRecords, cons_append, mem_cons, mem_append, mem_partRecords,
    restRecords, not_mem_nil, or_false, forall_eq_or_imp] at h
  obtain ⟨hmeta, h⟩ := h
  have hpart : ∀ j : Nat, (j : Int) < s.parts.total → Record.part s.header.height j ≠ r := fun j hj =>
    h _ (.inl ⟨j, by omega, rfl⟩)
  have hcommit : Record.commit (s.header.height - 1) ≠ r := h _ (.inr (.inl rfl))
  have hseen : Record.seenCommit s.header.height ≠ r := h _ (.inr (.inr (.inl rfl)))
  have hstate : Record.state ≠ r := h _ (.inr (.inr (.inr (.inl rfl))))
  have hnone : blockAt saved (saved.length + 1) = none := by simp [blockAt]
  cases r with
  | blockMeta height =>
    have hne : height ≠ saved.length + 1 := fun heq => hmeta (by rw [hheight, heq])
    simp only [requires, blockAt_append, if_neg hne]
  | part height index =>
    simp only [requires, blockAt_append]
    split_ifs with heq
    · have hnopart : partAt s.parts index = none :=
        partAt_eq_none hwf fun j hj hidx => hpart j hj (by rw [hheight, heq, hidx])
      rw [heq, hnone, bind_some, hnopart]
      rfl
    · rfl
  | commit height =>
    have hne : height + 1 ≠ saved.length + 1 := fun heq => hcommit (by rw [hheight]; congr 1; omega)
    simp only [requires, blockAt_append, if_neg hne]
  | seenCommit height =>
    have hne : height ≠ saved.length + 1 := fun heq => hseen (by rw [hheight, heq])
    simp only [requires, blockAt_append, if_neg hne]
  | state => exact absurd rfl hstate
  | bucket | flush => rfl

theorem Represents.saveBlock (hdb : Represents P B C db saved) {s : SavedBlock}
    (hheight : s.header.height = saved.length + 1) (hwf : s.parts.Wf) :
    Represents P B C (puts db (keyed (s.records P B C))) (saved ++ [s]) := by
  intro r bz hr
  by_cases hmem : ∃ w ∈ s.records P B C, w.1 = r
  · obtain ⟨w, hw, rfl⟩ := hmem
    have hbz : ∀ w' ∈ s.records P B C, w'.1 = w.1 → w'.2 = bz := fun w' hw' heq =>
      requires_of_mem_records hheight hw' (by rw [heq]; exact hr)
    refine puts_key_of_mem ?_ hbz
    rw [← hbz w hw rfl]
    exact hw
  · have hne : ∀ w ∈ s.records P B C, w.1 ≠ r := fun w hw heq => hmem ⟨w, hw, heq⟩
    rw [keyed, puts_key_of_ne hne]
    exact hdb r bz (by rw [← requires_of_not_mem_records hheight hwf hne]; exact hr)

theorem Represents.saveBucket (hdb : Represents P B C db saved) (height : Int) (bucketID bz : Bytes) :
    Represents P B C (puts db [(bucketKey height bucketID, bz)]) saved := by
  intro r bz' hr
  have hne : ∀ w ∈ [(Record.bucket height bucketID, bz)], w.1 ≠ r := fun w hw heq => by
    rw [mem_singleton.1 hw] at heq
    subst heq
    cases hr
  rw [← hdb r bz' hr]
  exact puts_key_of_ne hne

/-! ## Loading what was saved -/

theorem loadParts_eq_none : ∀ {n i j : Nat}, i ≤ j → j < i + n → loadBlockPart C db height j = some none →
    loadParts C db height n i = none
  | 0, i, j, hij, hjn, _ => by omega
  | n + 1, i, j, hij, hjn, hnone => by
    rw [loadParts]
    by_cases heq : i = j
    · rw [heq, hnone]
      rfl
    · rw [loadParts_eq_none (show i + 1 ≤ j by omega) (by omega) hnone]
      cases (loadBlockPart C db height i).join <;> rfl

theorem loadParts_eq_some (parts : List (Option Part)) : ∀ {n i : Nat}, i + n ≤ parts.length →
    (∀ j : Nat, i ≤ j → j < i + n → ∃ part, parts[j]? = some (some part) ∧
      loadBlockPart C db height j = some (some part)) →
    loadParts C db height n i = some (((parts.drop i).take n).flatMap fun part => (part.map Part.bytes).getD [])
  | 0, _, _, _ => by simp [loadParts]
  | n + 1, i, hlen, h => by
    obtain ⟨part, hpart, hload⟩ := h i le_rfl (by omega)
    have hrest := loadParts_eq_some parts (n := n) (i := i + 1) (by omega) fun j hj hlt => h j (by omega) (by omega)
    have hcons : (parts.drop i).take (n + 1) = some part :: (parts.drop (i + 1)).take n := by
      obtain ⟨hlt, hget⟩ := List.getElem?_eq_some_iff.1 hpart
      rw [drop_eq_getElem_cons hlt, take_succ_cons, hget]
    rw [loadParts, hload, hrest, hcons]
    rfl

/-- A complete part set that decodes to the block. -/
structure IsPartsOf (P : Primitives) (C : StoreCodec) (block : Block) (parts : PartSet) : Prop where
  built : PartSet.Built P parts
  complete : parts.isComplete = true
  decodes : C.unmarshalBlock parts.data = some block

structure SavedBlock.Fits (P : Primitives) (C : StoreCodec) (s : SavedBlock) : Prop where
  header : s.block.header = some s.header
  commit : s.block.commit = some s.commit
  parts : IsPartsOf P C s.block s.parts

theorem part_ne_nil (hbuilt : PartSet.Built P parts) (hdecodes : C.unmarshalBlock parts.data = some block) {j : Nat}
    {part : Part} (hpart : parts.parts[j]? = some (some part)) :
    C.part.enc part ≠ [] := by
  intro hnil
  have hempty := C.part_eq_nil part hnil
  have hmem := mem_of_getElem? hpart
  have htotal : parts.total = 1 := by
    by_contra hne
    rcases hbuilt.bytes_or_proof hne hmem with h | h <;> exact h (by rw [hempty]; rfl)
  -- the only part has no bytes, and nothing is no block
  have hlen : parts.parts.length = 1 := by have := hbuilt.wf.total; omega
  obtain ⟨slot, hslot⟩ := length_eq_one_iff.1 hlen
  have hdata : parts.data = [] := by
    rw [hslot] at hmem
    rw [PartSet.data, hslot, ← mem_singleton.1 hmem, hempty]
    rfl
  rw [hdata, C.unmarshalBlock_nil] at hdecodes
  cases hdecodes

/-- What the loads give for a saved block, its commits apart. -/
structure LoadsBlock (P : Primitives) (B : BlockCodec) (C : StoreCodec) (db : DB) (block : Block) (header : Header)
    (parts : PartSet) : Prop where
  loaded : loadBlock C db header.height = some (some block)
  loadedMeta : loadBlockMeta C db header.height = some (some (newBlockMeta P B block header parts))
  loadedPart : ∀ index, loadBlockPart C db header.height index = some (partAt parts index)

theorem loadsBlock_of_records (hfits : IsPartsOf P C block parts)
    (hmeta : db (calcBlockMetaKey header.height) = C.blockMeta.enc (newBlockMeta P B block header parts))
    (hpart : ∀ index, db (calcBlockPartKey header.height index) = ((partAt parts index).map C.part.enc).getD []) :
    LoadsBlock P B C db block header parts := by
  have hload : ∀ index, loadBlockPart C db header.height index = some (partAt parts index) := fun index => by
    cases hat : partAt parts index with
    | none => exact Blob.load_none (by rw [hpart, hat]; rfl)
    | some part =>
      refine Blob.load_some (by rw [hpart, hat]; rfl) ?_
      unfold partAt at hat
      split_ifs at hat
      exact part_ne_nil hfits.built hfits.decodes (join_eq_some_iff.1 hat)
  have hloadMeta := Blob.load_some hmeta (C.blockMeta_ne_nil _)
  refine ⟨?_, hloadMeta, hload⟩
  have htotal := hfits.built.wf.total
  have hparts : loadParts C db header.height parts.total.toNat 0 = some parts.data := by
    rw [loadParts_eq_some parts.parts (by omega) fun j _ hj => ?_]
    · rw [drop_zero, take_of_length_le (by omega)]
      rfl
    · obtain ⟨part, hget⟩ := hfits.built.wf.exists_part hfits.complete (show (j : Int) < parts.total by omega)
      exact ⟨part, hget, by rw [hload, partAt_natCast, hget]; rfl⟩
  rw [loadBlock, loadBlockMeta, hloadMeta]
  change ((loadParts C db header.height parts.total.toNat 0).bind fun buf => (C.unmarshalBlock buf).map some) = _
  rw [hparts, bind_some, hfits.decodes, map_some]

/-! ## Runs -/

/-- What a call saves, where none of the pointers it reads is `nil`. -/
def StoreCall.saves : StoreCall → Option SavedBlock
  | .saveBlock (some block) (some parts) (some seenCommit) =>
    block.header.bind fun header => block.commit.map fun commit => ⟨block, header, parts, commit, seenCommit⟩
  | _ => none

/-- The precondition of `SaveBlock`: the parts are parts of the block. -/
def PartsOf (P : Primitives) (C : StoreCodec) (block : Option Block) (parts : Option PartSet) : Prop :=
  ∀ b ps, block = some b → parts = some ps → PartSet.Built P ps ∧ C.unmarshalBlock ps.data = some b

def StoreCall.PartsOf (P : Primitives) (C : StoreCodec) : StoreCall → Prop
  | .saveBlock block parts _ => Blockchain.PartsOf P C block parts
  | .saveBucket _ _ _ => True

/-- The store after blocks were saved from height 1 on. -/
structure Stored (P : Primitives) (B : BlockCodec) (C : StoreCodec) (bs : BlockStore) (saved : List SavedBlock) :
    Prop where
  height : bs.height = saved.length
  represents : Represents P B C bs.db saved
  numbered : ∀ (i : Nat) s, saved[i]? = some s → s.header.height = i + 1
  fits : ∀ s ∈ saved, s.Fits P C

theorem stored_empty : Stored P B C BlockStore.empty [] :=
  ⟨rfl, represents_empty, (fun _ _ h => nomatch h), fun _ h => nomatch h⟩

theorem Stored.saveBlock {bs bs' : BlockStore} {block : Option Block} {parts : Option PartSet}
    {seenCommit : Option Commit} (hbs : Stored P B C bs saved) (hparts : PartsOf P C block parts)
    (h : bs.call P B C (.saveBlock block parts seenCommit) = some bs') :
    Stored P B C bs' (saved ++ (StoreCall.saveBlock block parts seenCommit).saves.toList) := by
  obtain ⟨height, hok, rfl⟩ := map_eq_some_iff.1 h
  rcases saveBlock_cases bs.height block parts seenCommit bs.db with ⟨e, he⟩ | ⟨b, header, ps, rfl, hheader, rfl,
    hheight, hcomplete⟩
  · rw [he.snd] at hok
    cases hok
  obtain ⟨hbuilt, hdecodes⟩ := hparts b ps rfl rfl
  have hw := saveBlock_writes (P := P) (B := B) (C := C) seenCommit hheader hheight hcomplete hbuilt.wf bs.db
  rw [hw.snd] at hok
  cases hcommit : b.commit with
  | none =>
    rw [hcommit] at hok
    cases hok
  | some commit =>
    cases seenCommit with
    | none =>
      rw [hcommit] at hok
      cases hok
    | some seenCommit =>
      rw [hcommit] at hok hw
      cases hok
      have hsaved : (StoreCall.saveBlock (some b) (some ps) (some seenCommit)).saves =
        some ⟨b, header, ps, commit, seenCommit⟩ := by
        rw [StoreCall.saves, hheader, hcommit]
        rfl
      have hlen : header.height = saved.length + 1 := by rw [hheight, hbs.height]
      rw [hsaved, toList_some]
      refine ⟨by rw [length_append]; exact hlen, ?_, fun i s hs => ?_, fun s hs => ?_⟩
      · rw [hw.final]
        exact hbs.represents.saveBlock hlen hbuilt.wf
      · rw [getElem?_append] at hs
        split_ifs at hs with hi
        · exact hbs.numbered i s hs
        · rw [getElem?_singleton] at hs
          split_ifs at hs with hi'
          cases hs
          exact hlen.trans (by omega)
      · rcases mem_append.1 hs with hs | hs
        · exact hbs.fits s hs
        · rw [mem_singleton.1 hs]
          exact ⟨hheader, hcommit, hbuilt, hcomplete, hdecodes⟩

theorem Stored.saveBucket {bs bs' : BlockStore} {bucketID : Bytes} {bucket : Option TxBucket}
    (hbs : Stored P B C bs saved) (h : bs.call P B C (.saveBucket height bucketID bucket) = some bs') :
    Stored P B C bs' saved := by
  obtain ⟨_, hok, rfl⟩ := map_eq_some_iff.1 h
  cases bucket with
  | none => cases hok
  | some bucket => exact ⟨hbs.height, hbs.represents.saveBucket height bucketID _, hbs.numbered, hbs.fits⟩

theorem Stored.call {bs bs' : BlockStore} {c : StoreCall} (hbs : Stored P B C bs saved) (hparts : c.PartsOf P C)
    (h : bs.call P B C c = some bs') : Stored P B C bs' (saved ++ c.saves.toList) := by
  cases c with
  | saveBlock block parts seenCommit => exact hbs.saveBlock hparts h
  | saveBucket height bucketID bucket =>
    have hbs' := hbs.saveBucket h
    simpa [StoreCall.saves] using hbs'

theorem Stored.calls :
    ∀ {calls : List StoreCall} {bs bs' : BlockStore} {saved : List SavedBlock}, Stored P B C bs saved →
    (∀ c ∈ calls, c.PartsOf P C) → bs.calls P B C calls = some bs' →
    Stored P B C bs' (saved ++ calls.filterMap StoreCall.saves)
  | [], bs, bs', saved, hbs, _, h => by
    cases h
    simpa using hbs
  | c :: cs, bs, bs', saved, hbs, hparts, h => by
    obtain ⟨bs₁, hc, hcs⟩ := bind_eq_some_iff.1 h
    have hrest := (hbs.call (hparts c mem_cons_self) hc).calls
      (fun c' hc' => hparts c' (mem_cons_of_mem c hc')) hcs
    have hlist : saved ++ (c :: cs).filterMap StoreCall.saves = saved ++ c.saves.toList ++
      cs.filterMap StoreCall.saves := by
      rw [filterMap_cons]
      cases c.saves <;> simp
    rwa [hlist]

theorem load_of_record {α β : Type} {c : Blob α} {key : Bytes} {o : Option β} {f : β → α}
    (h : db key = (o.map fun b => c.enc (f b)).getD []) :
    c.load db key = some none ∨ ∃ b, o = some b ∧ c.load db key = some (some (f b)) := by
  cases o with
  | none => exact .inl (Blob.load_none h)
  | some b =>
    by_cases hnil : c.enc (f b) = []
    · exact .inl (Blob.load_none (h.trans hnil))
    · exact .inr ⟨b, rfl, Blob.load_some h hnil⟩

namespace Stored

variable {bs : BlockStore} (hbs : Stored P B C bs saved)
include hbs

section

variable {s : SavedBlock} (hs : s ∈ saved)
include hs

theorem required : blockAt saved s.header.height = some s := by
  obtain ⟨i, hi⟩ := mem_iff_getElem?.1 hs
  rw [hbs.numbered i s hi, blockAt]
  simpa using hi

theorem loadsBlock : LoadsBlock P B C bs.db s.block s.header s.parts := by
  have hat := hbs.required hs
  refine loadsBlock_of_records (hbs.fits s hs).parts ?_ fun index => ?_
  · exact hbs.represents (.blockMeta s.header.height) _ (by rw [requires, hat]; rfl)
  · exact hbs.represents (.part s.header.height index) _ (by rw [requires, hat]; rfl)

theorem loadBlockCommit_saved : loadBlockCommit C bs.db (s.header.height - 1) = some (some s.commit) :=
  Blob.load_some (hbs.represents (.commit (s.header.height - 1)) _ (by
    rw [requires, sub_add_cancel, hbs.required hs]
    rfl)) (C.commit_ne_nil _)

theorem loadSeenCommit_saved : loadSeenCommit C bs.db s.header.height = some (some s.seenCommit) :=
  Blob.load_some (hbs.represents (.seenCommit s.header.height) _ (by
    rw [requires, hbs.required hs]
    rfl)) (C.commit_ne_nil _)

end

theorem of_blockAt {height : Int} {s : SavedBlock} (h : blockAt saved height = some s) :
    s ∈ saved ∧ s.header.height = height := by
  unfold blockAt at h
  split_ifs at h with hpos
  exact ⟨mem_of_getElem? h, by rw [hbs.numbered _ s h]; omega⟩

theorem blockAt_isSome (height : Int) (hpos : 0 < height) (hle : height ≤ bs.height) :
    ∃ s, blockAt saved height = some s := by
  have hlen := hbs.height
  have hlt : (height - 1).toNat < saved.length := by omega
  exact ⟨saved.get ⟨_, hlt⟩, by rw [blockAt, if_pos hpos, getElem?_eq_getElem hlt, get_eq_getElem]⟩

theorem loadBlockMeta_eq (height : Int) :
    loadBlockMeta C bs.db height = some ((blockAt saved height).map fun s => newBlockMeta P B s.block s.header
      s.parts) := by
  have hrec := hbs.represents (.blockMeta height) _ rfl
  cases hat : blockAt saved height with
  | none => exact Blob.load_none (by rw [hat] at hrec; exact hrec)
  | some s => exact Blob.load_some (by rw [hat] at hrec; exact hrec) (C.blockMeta_ne_nil _)

theorem loadBlockPart_isSome (height index : Int) : ∃ part, loadBlockPart C bs.db height index = some part := by
  have hrec := hbs.represents (.part height index) _ rfl
  have hmap : ((blockAt saved height).bind fun s => (partAt s.parts index).map C.part.enc) =
      ((blockAt saved height).bind fun s => partAt s.parts index).map fun part => C.part.enc (id part) := by
    cases blockAt saved height <;> rfl
  rw [hmap] at hrec
  rcases load_of_record hrec with h | ⟨_, _, h⟩
  · exact ⟨_, h⟩
  · exact ⟨_, h⟩

theorem loadBlockCommit_cases (height : Int) : loadBlockCommit C bs.db height = some none ∨
      ∃ s, blockAt saved (height + 1) = some s ∧ loadBlockCommit C bs.db height = some (some s.commit) :=
  load_of_record (hbs.represents (.commit height) _ rfl)

end Stored

/-- The loads of a height, and of the commit of the height before, give what was saved. -/
structure LoadsBack (P : Primitives) (B : BlockCodec) (C : StoreCodec) (db : DB) (s : SavedBlock) : Prop where
  block : LoadsBlock P B C db s.block s.header s.parts
  seenCommit : loadSeenCommit C db s.header.height = some (some s.seenCommit)
  commit : loadBlockCommit C db (s.header.height - 1) = some (some s.commit)

/-- **Fidelity of the block store**: after any calls that return, the saved blocks have the heights from 1 on, and
every load gives what was saved. -/
theorem loads_saved {calls : List StoreCall} {bs : BlockStore} (hcalls : BlockStore.empty.calls P B C calls = some bs)
    (hparts : ∀ c ∈ calls, c.PartsOf P C) :
    bs.height = (calls.filterMap StoreCall.saves).length ∧
    (∀ (i : Nat) s, (calls.filterMap StoreCall.saves)[i]? = some s → s.header.height = i + 1) ∧
    ∀ s ∈ calls.filterMap StoreCall.saves, LoadsBack P B C bs.db s := by
  have hbs : Stored P B C bs (calls.filterMap StoreCall.saves) := stored_empty.calls hparts hcalls
  exact ⟨hbs.height, hbs.numbered, fun s hs =>
    ⟨hbs.loadsBlock hs, hbs.loadSeenCommit_saved hs, hbs.loadBlockCommit_saved hs⟩⟩

/-! ## Examples -/

theorem partsOf_makePartSet {partSize : Int}
    (hcodec : C.unmarshalBlock (B.marshalBlock block) = some block) (h : block.makePartSet P B partSize = some parts) :
    PartsOf P C (some block) (some parts) := by
  rintro _ _ ⟨⟩ ⟨⟩
  exact ⟨.fromData h, by rw [(PartSet.cutFrom_newPartSetFromData h).data, hcodec]⟩

def plainBlock (height : Int) (commit : Commit) : Block where
  header := some {
    chainID := [99], height, time := 0, numTxs := 0, lastBlockID := BlockID.empty, totalTxs := 0, dataHash := []
    validatorsHash := [1], consensusHash := [], appHash := [], lastResultsHash := [] }
  data := some ⟨[]⟩
  commit := some commit

def plainParts (block : Block) : Option PartSet := block.makePartSet .transparent .plain 32

theorem partsOf_plainParts (block : Block) : PartsOf .transparent .plain (some block) (plainParts block) := by
  cases h : plainParts block with
  | none => exact fun _ _ _ h => nomatch h
  | some parts => exact partsOf_makePartSet (B := .plain) (Plain.block.decode_enc block) h

def plainCommit : Commit := ⟨⟨[1], ⟨1, [2]⟩⟩, [none]⟩

def plainSave (height : Int) (commit : Commit) : StoreCall :=
  .saveBlock (some (plainBlock height commit)) (plainParts (plainBlock height commit)) (some plainCommit)

theorem partsOf_plainSave (height : Int) (commit : Commit) : (plainSave height commit).PartsOf .transparent .plain :=
  partsOf_plainParts _

/-- The first block has the empty commit. -/
def plainCalls : List StoreCall :=
  [plainSave 1 Commit.empty, .saveBucket 1 [50] (some ⟨[50], []⟩), plainSave 2 plainCommit]

theorem partsOf_plainCalls : ∀ c ∈ plainCalls, c.PartsOf .transparent .plain := by
  simp only [plainCalls, mem_cons, not_mem_nil, or_false, forall_eq_or_imp, forall_eq]
  exact ⟨partsOf_plainSave _ _, trivial, partsOf_plainSave _ _⟩

theorem isSome_plainCalls :
    (BlockStore.empty.calls .transparent .plain .plain plainCalls).isSome = true := by decide +kernel

theorem plainCalls_load_saved : ∃ bs, BlockStore.empty.calls .transparent .plain .plain plainCalls = some bs ∧
    (plainCalls.filterMap StoreCall.saves).length = 2 ∧
    ∀ s ∈ plainCalls.filterMap StoreCall.saves, LoadsBack .transparent .plain .plain bs.db s := by
  obtain ⟨bs, hbs⟩ := isSome_iff_exists.1 isSome_plainCalls
  exact ⟨bs, hbs, by decide +kernel, (loads_saved hbs partsOf_plainCalls).2.2⟩

/-! ## A save that is stopped -/

/-- A database that answers every height with a block that was saved for it, or with none. -/
def Answers (C : StoreCodec) (db : DB) (savedAt : Int → Block → Prop) : Prop :=
  (newBlockStore C db).isSome = true ∧
    ∀ height, loadBlock C db height = some none ∨ ∃ block, savedAt height block ∧
      loadBlock C db height = some (some block)

def SavedAt (saved : List SavedBlock) (height : Int) (block : Block) : Prop :=
  ∃ s ∈ saved, s.header.height = height ∧ s.block = block

theorem loadBlock_congr {db' : DB} (hmeta : db' (calcBlockMetaKey height) = db (calcBlockMetaKey height))
    (hpart : ∀ index, db' (calcBlockPartKey height index) = db (calcBlockPartKey height index)) :
    loadBlock C db' height = loadBlock C db height := by
  have hparts : ∀ n i, loadParts C db' height n i = loadParts C db height n i := by
    intro n
    induction n with
    | zero => exact fun _ => rfl
    | succ n ih =>
      intro i
      rw [loadParts, loadParts, ih, loadBlockPart, loadBlockPart, Blob.load_congr (hpart i)]
  simp only [loadBlock, loadBlockMeta, Blob.load_congr hmeta, hparts]

theorem Stored.next {bs : BlockStore} (hbs : Stored P B C bs saved) :
    bs.db (calcBlockMetaKey (bs.height + 1)) = [] ∧ ∀ index, bs.db (calcBlockPartKey (bs.height + 1) index) = [] := by
  have hnone : blockAt saved (bs.height + 1) = none := by simp [blockAt, hbs.height]
  exact ⟨hbs.represents (.blockMeta (bs.height + 1)) _ (by rw [requires, hnone]; rfl),
    fun index => hbs.represents (.part (bs.height + 1) index) _ (by rw [requires, hnone]; rfl)⟩

theorem Stored.answers {bs : BlockStore} (hbs : Stored P B C bs saved) : Answers C bs.db (SavedAt saved) := by
  refine ⟨?_, fun height => ?_⟩
  · have hstate := hbs.represents .state _ rfl
    unfold newBlockStore
    by_cases hnil : saved = []
    · rw [if_pos hnil] at hstate
      have hload : C.height.load bs.db blockStoreKey = some none := Blob.load_none hstate
      rw [hload]
      rfl
    · rw [if_neg hnil] at hstate
      have hload : C.height.load bs.db blockStoreKey = some (some _) := Blob.load_some hstate (C.height_ne_nil _)
      rw [hload]
      rfl
  · cases hat : blockAt saved height with
    | none =>
      left
      have hmeta := hbs.loadBlockMeta_eq height
      rw [hat] at hmeta
      rw [loadBlock, hmeta]
      rfl
    | some s =>
      obtain ⟨hs, rfl⟩ := hbs.of_blockAt hat
      exact .inr ⟨s.block, ⟨s, hs, rfl, rfl⟩, (hbs.loadsBlock hs).loaded⟩

theorem mem_blockRecords : w ∈ blockRecords P B C block header parts ↔
      w = (.blockMeta header.height, C.blockMeta.enc (newBlockMeta P B block header parts)) ∨
        ∃ j : Nat, j < parts.total.toNat ∧
          w = (.part header.height j, (((parts.parts[j]?).join).map C.part.enc).getD []) :=
  mem_cons.trans (or_congr_right mem_partRecords)

theorem mem_restRecords {commit seenCommit : Option Commit}
    (h : w ∈ (restRecords C height commit seenCommit).1) : w = (.state, C.height.enc height) ∨
      (∀ height, w.1 ≠ .blockMeta height) ∧ (∀ height index, w.1 ≠ .part height index) ∧ w.1 ≠ .state := by
  rcases commit with _ | commit
  · cases h
  rcases seenCommit with _ | seenCommit
  · rw [mem_singleton.1 h]
    exact .inr (by simp)
  · simp only [restRecords, mem_cons, not_mem_nil, or_false] at h
    rcases h with rfl | rfl | rfl | rfl
    · exact .inr (by simp)
    · exact .inr (by simp)
    · exact .inl rfl
    · exact .inr (by simp)

section

variable {block : Block} {header : Header} {parts : PartSet} {commit seenCommit : Option Commit} {n : Nat}

def firstRecords (P : Primitives) (B : BlockCodec) (C : StoreCodec) (block : Block) (header : Header) (parts : PartSet)
    (commit seenCommit : Option Commit) (n : Nat) : List (Record × Bytes) :=
  (blockRecords P B C block header parts ++ (restRecords C header.height commit seenCommit).1).take n

theorem length_blockRecords : (blockRecords P B C block header parts).length = parts.total.toNat + 1 := by
  simp [blockRecords, partRecords]

variable {ws : List (Record × Bytes)} (hws : ws = firstRecords P B C block header parts commit seenCommit n)
include hws

variable {w : Record × Bytes}

theorem cases_first (hw : w ∈ ws) :
    w = (.blockMeta header.height, C.blockMeta.enc (newBlockMeta P B block header parts)) ∨
      (∃ j : Nat, j < parts.total.toNat ∧
        w = (.part header.height j, (((parts.parts[j]?).join).map C.part.enc).getD [])) ∨
      w = (.state, C.height.enc header.height) ∨
      (∀ height, w.1 ≠ .blockMeta height) ∧ (∀ height index, w.1 ≠ .part height index) ∧ w.1 ≠ .state := by
  rw [hws] at hw
  rcases mem_append.1 (mem_of_mem_take hw) with hw | hw
  · exact (mem_blockRecords.1 hw).imp_right .inl
  · exact .inr (.inr (mem_restRecords hw))

theorem loadBlock_firstRecords_of_ne {height : Int} (hne : height ≠ header.height) :
    loadBlock C (puts db (keyed ws)) height =
      loadBlock C db height := by
  have hfree : ∀ w ∈ ws, w.1 ≠ .blockMeta height ∧ ∀ index, w.1 ≠ .part height index := fun w hw => by
    rcases cases_first hws hw with rfl | ⟨j, -, rfl⟩ | rfl | hw
    · exact ⟨by simpa using hne.symm, by simp⟩
    · exact ⟨by simp, fun index heq => hne (Record.part.inj heq).1.symm⟩
    · exact ⟨by simp, by simp⟩
    · exact ⟨hw.1 height, hw.2.1 height⟩
  exact loadBlock_congr (puts_key_of_ne fun w hw => (hfree w hw).1)
    fun index => puts_key_of_ne fun w hw => (hfree w hw).2 index

/-- The height can be read whether or not the new one was written. -/
theorem newBlockStore_firstRecords (h : (newBlockStore C db).isSome = true) :
    (newBlockStore C (puts db (keyed ws))).isSome = true := by
  by_cases hmem : ∃ w ∈ ws, w.1 = .state
  · obtain ⟨w, hw, hstate⟩ := hmem
    have hval : ∀ w' ∈ ws, w'.1 = .state → w'.2 = C.height.enc header.height := fun w' hw' heq => by
      rcases cases_first hws hw' with rfl | ⟨j, -, rfl⟩ | rfl | hw'
      · cases heq
      · cases heq
      · rfl
      · exact absurd heq hw'.2.2
    have hkey : puts db (keyed ws) Record.state.key = C.height.enc header.height :=
      puts_key_of_mem (by rw [← hval w hw hstate, ← hstate]; exact hw) hval
    have hload : C.height.load _ blockStoreKey = some (some header.height) :=
      Blob.load_some hkey (C.height_ne_nil _)
    rw [newBlockStore, hload]
    rfl
  · have hkey : puts db (keyed ws) Record.state.key = db Record.state.key :=
      puts_key_of_ne fun w hw heq => hmem ⟨w, hw, heq⟩
    have hload : C.height.load (puts db (keyed ws))
        blockStoreKey = C.height.load db blockStoreKey := Blob.load_congr hkey
    rw [newBlockStore, hload]
    simpa [newBlockStore] using h

theorem eq_of_mem_blockRecords {w' : Record × Bytes} (hw : w ∈ ws) (hw' : w' ∈ blockRecords P B C block header parts)
    (h : w.1 = w'.1) : w.2 = w'.2 := by
  rcases cases_first hws hw with rfl | ⟨j, -, rfl⟩ | rfl | hw <;>
    rcases mem_blockRecords.1 hw' with rfl | ⟨j', -, rfl⟩
  · rfl
  · cases h
  · cases h
  · obtain ⟨-, hj⟩ := Record.part.inj h
    rw [Int.ofNat.inj hj]
  · cases h
  · cases h
  · exact absurd h (hw.1 _)
  · exact absurd h (hw.2.1 _ _)

theorem puts_firstRecords (hw : w ∈ (blockRecords P B C block header parts).take n) :
    puts db (keyed ws) w.1.key = w.2 := by
  refine puts_key_of_mem ?_ fun w' hw' heq => eq_of_mem_blockRecords hws hw' (mem_of_mem_take hw) heq
  rw [hws, firstRecords, take_append]
  exact mem_append_left _ hw

/-- Between the meta and the last part the block cannot be loaded: a missing part is read. -/
theorem loadBlock_firstRecords_eq_none (hempty : ∀ index, db (calcBlockPartKey header.height index) = []) (hpos : 0 < n)
    (hle : (n : Int) ≤ parts.total) : loadBlock C (puts db (keyed ws)) header.height = none := by
  have hnot : ∀ w ∈ ws, w.1 ≠ .part header.height (n - 1 : Nat) := by
    intro w hw heq
    rw [hws] at hw
    obtain ⟨i, hi, hget⟩ := mem_take_iff_getElem.1 hw
    cases i with
    | zero =>
      subst hget
      cases heq
    | succ i =>
      -- the record at position `i + 1` is that of part `i`
      have hi' : i < (partRecords C header.height parts parts.total.toNat 0).length := by
        simp only [partRecords, length_map, length_range']
        omega
      have hw' : (partRecords C header.height parts parts.total.toNat 0)[i] = w := by
        rw [← hget]
        exact (getElem_append_left hi').symm
      subst hw'
      simp only [partRecords, getElem_map, getElem_range', Record.part.injEq] at heq
      omega
  have hmeta : loadBlockMeta C (puts db (keyed ws))
      header.height = some (some (newBlockMeta P B block header parts)) := by
    refine Blob.load_some ?_ (C.blockMeta_ne_nil _)
    refine puts_firstRecords hws
      (w := (.blockMeta header.height, C.blockMeta.enc (newBlockMeta P B block header parts))) ?_
    obtain ⟨m, rfl⟩ := Nat.exists_eq_succ_of_ne_zero hpos.ne'
    exact mem_cons_self
  have hpart : loadBlockPart C (puts db (keyed ws))
      header.height (n - 1 : Nat) = some none :=
    Blob.load_none ((puts_key_of_ne (r := .part header.height (n - 1 : Nat)) hnot).trans (hempty _))
  rw [loadBlock, hmeta]
  change ((loadParts C _ header.height parts.total.toNat 0).bind fun buf => (C.unmarshalBlock buf).map some) = none
  rw [loadParts_eq_none (Nat.zero_le (n - 1)) (by omega) hpart]
  rfl

theorem loadBlock_firstRecords_eq_some (hfits : IsPartsOf P C block parts)
    (hempty : ∀ index, db (calcBlockPartKey header.height index) = []) (hlt : parts.total < n) :
    loadBlock C (puts db (keyed ws)) header.height = some (some block) := by
  have hall : (blockRecords P B C block header parts).take n = blockRecords P B C block header parts :=
    take_of_length_le (by rw [length_blockRecords]; have := hfits.built.wf.total; omega)
  refine (loadsBlock_of_records (P := P) (B := B) hfits ?_ fun index => ?_).loaded
  · exact puts_firstRecords hws (w := (.blockMeta header.height, C.blockMeta.enc (newBlockMeta P B block header parts)))
      (by rw [hall]; exact mem_cons_self)
  · by_cases hin : ∃ j : Nat, (j : Int) < parts.total ∧ index = j
    · obtain ⟨j, hj, rfl⟩ := hin
      exact puts_firstRecords hws (w := (.part header.height j, _)) (by
        rw [hall]
        exact mem_cons_of_mem _ (mem_partRecords.2 ⟨j, by omega, rfl⟩))
    · rw [partAt_eq_none hfits.built.wf fun j hj heq => hin ⟨j, hj, heq⟩, ← hempty index]
      refine puts_key_of_ne (r := .part header.height index) fun w hw heq => ?_
      rcases cases_first hws hw with rfl | ⟨j, hj, rfl⟩ | rfl | hw
      · cases heq
      · exact hin ⟨j, by omega, (Record.part.inj heq).2.symm⟩
      · cases heq
      · exact hw.2.1 _ _ heq

end

def SavingAt (block : Option Block) (height : Int) (b : Block) : Prop :=
  block = some b ∧ ∃ header, b.header = some header ∧ header.height = height

/-- A save that is stopped leaves a block that can be loaded, or none, exactly where it is stopped before the meta or
after the last part. -/
theorem stoppedSave_iff {calls : List StoreCall} {bs : BlockStore}
    (hcalls : BlockStore.empty.calls P B C calls = some bs) (hparts : ∀ c ∈ calls, c.PartsOf P C)
    {block : Option Block} {parts : Option PartSet} {seenCommit : Option Commit} (hlast : PartsOf P C block parts)
    {n : Nat} (hn : n ≤ (saveBlock P B C bs.height block parts seenCommit bs.db).1.length) :
    Answers C (after (saveBlock P B C bs.height block parts seenCommit) bs.db n)
        (fun height b => SavedAt (calls.filterMap StoreCall.saves) height b ∨ SavingAt block height b) ↔
      n = 0 ∨ ∃ ps, parts = some ps ∧ ps.total < n := by
  have hbs : Stored P B C bs (calls.filterMap StoreCall.saves) := stored_empty.calls hparts hcalls
  have hanswers : Answers C bs.db
      fun height b => SavedAt (calls.filterMap StoreCall.saves) height b ∨ SavingAt block height b :=
    ⟨hbs.answers.1, fun height => (hbs.answers.2 height).imp_right fun ⟨b, hb, hload⟩ => ⟨b, .inl hb, hload⟩⟩
  rcases saveBlock_cases (P := P) (B := B) (C := C) bs.height block parts seenCommit bs.db with
    ⟨e, he⟩ | ⟨b, header, ps, rfl, hheader, rfl, hheight, hcomplete⟩
  · rw [he] at hn
    obtain rfl : n = 0 := Nat.le_zero.1 hn
    exact iff_of_true hanswers (.inl rfl)
  obtain ⟨hbuilt, hdecodes⟩ := hlast b ps rfl rfl
  have hfits : IsPartsOf P C b ps := ⟨hbuilt, hcomplete, hdecodes⟩
  have hw := saveBlock_writes (P := P) (B := B) (C := C) seenCommit hheader hheight hcomplete hbuilt.wf bs.db
  have hdb : after (saveBlock P B C bs.height (some b) (some ps) seenCommit) bs.db n =
      puts bs.db (keyed (firstRecords P B C b header ps b.commit seenCommit n)) := by
    rw [hw.after, keyed, ← map_take]
    rfl
  rw [hdb]
  have hempty : ∀ index, bs.db (calcBlockPartKey header.height index) = [] := by
    rw [hheight]
    exact hbs.next.2
  constructor
  · intro h
    by_contra hcut
    have hpos : 0 < n := Nat.pos_of_ne_zero fun heq => hcut (.inl heq)
    have hle : (n : Int) ≤ ps.total := not_lt.1 fun hlt => hcut (.inr ⟨ps, rfl, hlt⟩)
    have hnone : loadBlock C (puts bs.db (keyed (firstRecords P B C b header ps b.commit seenCommit n))) header.height =
        none := loadBlock_firstRecords_eq_none rfl hempty hpos hle
    rcases h.2 header.height with heq | ⟨b', -, heq⟩ <;> rw [hnone] at heq <;> cases heq
  · rintro (rfl | ⟨_, heq, hlt⟩)
    · exact hanswers
    · cases heq
      refine ⟨newBlockStore_firstRecords rfl hbs.answers.1, fun height => ?_⟩
      by_cases hnew : height = header.height
      · subst hnew
        exact .inr ⟨b, .inr ⟨rfl, header, hheader, rfl⟩, loadBlock_firstRecords_eq_some rfl hfits hempty hlt⟩
      · rw [loadBlock_firstRecords_of_ne rfl hnew]
        exact hanswers.2 height

def plainStore : BlockStore := (BlockStore.empty.calls .transparent .plain .plain plainCalls).get isSome_plainCalls

theorem isSome_plainParts : (plainParts (plainBlock 3 plainCommit)).isSome = true := by decide +kernel

def thirdParts : PartSet := (plainParts (plainBlock 3 plainCommit)).get isSome_plainParts

/-- The third block, stopped with all of its parts written. -/
theorem stoppedSave_after_parts : BlockStore.empty.calls .transparent .plain .plain plainCalls = some plainStore ∧
    Answers .plain (after (saveBlock .transparent .plain .plain plainStore.height (some (plainBlock 3 plainCommit))
        (some thirdParts) (some plainCommit)) plainStore.db (thirdParts.total.toNat + 1))
      fun height b => SavedAt (plainCalls.filterMap StoreCall.saves) height b ∨
      SavingAt (some (plainBlock 3 plainCommit)) height b := by
  have hstore : BlockStore.empty.calls .transparent .plain .plain plainCalls = some plainStore := (some_get _).symm
  have hparts : plainParts (plainBlock 3 plainCommit) = some thirdParts := (some_get _).symm
  have hlast := partsOf_plainParts (plainBlock 3 plainCommit)
  rw [hparts] at hlast
  exact ⟨hstore, (stoppedSave_iff hstore partsOf_plainCalls hlast (by decide +kernel)).2
    (.inr ⟨thirdParts, rfl, by decide +kernel⟩)⟩

/-- The first block, stopped after its meta: loading it panics. -/
theorem meta_without_parts :
    PartsOf .transparent .plain (some (plainBlock 1 plainCommit)) (plainParts (plainBlock 1 plainCommit)) ∧
    loadBlock .plain (after (saveBlock .transparent .plain .plain 0 (some (plainBlock 1 plainCommit))
      (plainParts (plainBlock 1 plainCommit)) (some plainCommit)) BlockStore.empty.db 1) 1 = none :=
  ⟨partsOf_plainParts _, by decide +kernel⟩

end Demars.Blockchain
