import Dynarec.Verdict.Store
import Mathlib.Data.Set.Card

/-!
# The verdict store as a map

What was stored last under a key is found there, and a key tells the entry address
and the digest of the code that it was made of.
-/

namespace Dynarec

open List

theorem setWidth_bytes (bits : BitVec 32) :
    ((bits >>> 24).setWidth 8).setWidth 32 <<< 24 ||| ((bits >>> 16).setWidth 8).setWidth 32 <<< 16 |||
      ((bits >>> 8).setWidth 8).setWidth 32 <<< 8 ||| (bits.setWidth 8).setWidth 32 = bits := by
  ext i inside
  simp only [BitVec.getElem_or, BitVec.getElem_shiftLeft, BitVec.getElem_setWidth,
    BitVec.getLsbD_setWidth, BitVec.getLsbD_ushiftRight]
  grind

theorem VerdictRecord.wordOf_wordBytes (word : Word) :
    wordOf (word >>> 24).toUInt8 (word >>> 16).toUInt8 (word >>> 8).toUInt8 word.toUInt8 = word :=
  UInt32.toBitVec_inj.mp (setWidth_bytes word.toBitVec)

theorem Image.wordBytes_injective : Function.Injective wordBytes := by
  intro word other same
  simp only [wordBytes, List.cons.injEq, and_true] at same
  obtain ⟨first, second, third, fourth⟩ := same
  rw [← VerdictRecord.wordOf_wordBytes word, ← VerdictRecord.wordOf_wordBytes other, first, second,
    third, fourth]

namespace VerdictRecord

theorem decode_encode (record : VerdictRecord) : decode record.encode = .ok record := by
  simp [encode, decode, Image.wordBytes, wordOf_wordBytes]

theorem wordBytes_wordOf (a b c d : UInt8) : Image.wordBytes (wordOf a b c d) = [a, b, c, d] := by
  simp only [Image.wordBytes, wordOf, List.cons.injEq, and_true, ← UInt8.toBitVec_inj]
  refine ⟨?_, ?_, ?_, ?_⟩ <;>
    · ext i inside
      simp [inside]
      all_goals grind

theorem decode_cases (bytes : List UInt8) :
    bytes.length < 9 ∧ decode bytes = .error (.short bytes.length) ∨
      9 ≤ bytes.length ∧ ∃ record, decode bytes = .ok record ∧ record.encode = bytes := by
  rcases bytes with _ | ⟨code, _ | ⟨a, _ | ⟨b, _ | ⟨c, _ | ⟨d, _ | ⟨e, _ | ⟨f, _ | ⟨g, _ | ⟨h,
    message⟩⟩⟩⟩⟩⟩⟩⟩⟩
  iterate 9 exact .inl ⟨by simp, rfl⟩
  exact .inr ⟨by simp, _, rfl, by simp [encode, wordBytes_wordOf]⟩

end VerdictRecord

theorem VerdictKey.ofCode_eq_ofCode_iff :
    ofCode entry code = ofCode other bytes ↔
      entry = other ∧ Blake2b.digest code = Blake2b.digest bytes := by
  constructor
  · intro same
    obtain ⟨entry_eq, digest_eq⟩ := append_inj (List.cons.inj same).2 rfl
    exact ⟨Image.wordBytes_injective entry_eq, digest_eq⟩
  · rintro ⟨rfl, digest_eq⟩
    rw [ofCode, ofCode, digest_eq]

namespace VerdictStore

theorem lookup_filter_ne (ne : other ≠ key) (items : List (VerdictKey × List UInt8)) :
    (items.filter (·.1 ≠ key)).lookup other = items.lookup other := by
  induction items with
  | nil => rfl
  | cons item items ih =>
    obtain ⟨first, bytes⟩ := item
    by_cases here : first = key
    · subst here
      have apart : (other == first) = false := by simpa using ne
      simpa [lookup_cons, apart] using ih
    · simp only [ne_eq, here, not_false_eq_true, decide_true, filter_cons_of_pos, lookup_cons]
      split
      · rfl
      · exact ih

theorem get_put (store : VerdictStore) (key other : VerdictKey) (record : VerdictRecord) :
    (store.put key record).get other =
      if other = key then .ok (some record) else store.get other := by
  split
  next same =>
    subst same
    simp [get, find?, put, putBytes, VerdictRecord.decode_encode, Except.map]
  next ne =>
    have apart : (other == key) = false := by simpa using ne
    simp only [get, find?, put, putBytes, delete, lookup_cons, apart]
    rw [lookup_filter_ne ne]

theorem get_delete (store : VerdictStore) (key other : VerdictKey) :
    (store.delete key).get other = if other = key then .ok none else store.get other := by
  split
  next same =>
    subst same
    have absent : (store.items.filter (·.1 ≠ other)).lookup other = none := by
      refine lookup_eq_none_iff.mpr fun item listed => ?_
      have ne := of_decide_eq_true (mem_filter.mp listed).2
      exact bne_iff_ne.mpr (Ne.symm ne)
    simp only [get, find?, delete, absent]
  next ne => simp only [get, find?, delete, lookup_filter_ne ne]

/-! ## Runs of changes -/

/-- A change of what is stored under a key. -/
inductive Edit where
  | put (key : VerdictKey) (record : VerdictRecord)
  | delete (key : VerdictKey)

namespace Edit

def key : Edit → VerdictKey
  | put key _ | delete key => key

def record? : Edit → Option VerdictRecord
  | put _ record => some record
  | delete _ => none

def perform (store : VerdictStore) : Edit → VerdictStore
  | put key record => store.put key record
  | delete key => store.delete key

end Edit

/-- The store that changes lead to. -/
def ofEdits (edits : List Edit) : VerdictStore :=
  edits.foldl Edit.perform empty

/-- What the last change of a key stored, if it did. -/
def lastOf (edits : List Edit) (key : VerdictKey) : Option VerdictRecord :=
  (edits.reverse.find? (·.key = key)).bind Edit.record?

theorem lastOf_concat (edits : List Edit) (edit : Edit) (key : VerdictKey) :
    lastOf (edits ++ [edit]) key = if key = edit.key then edit.record? else lastOf edits key := by
  split <;> simp_all [lastOf, eq_comm]

/-- A store that holds one verdict for each key with contents. -/
structure Holds (store : VerdictStore) (contents : VerdictKey → Option VerdictRecord) : Prop where
  get_eq : ∀ key, store.get key = .ok (contents key)
  nodup : (store.items.map Prod.fst).Nodup
  mem_iff : ∀ key, key ∈ store.items.map Prod.fst ↔ (contents key).isSome

theorem Holds.perform (holds : store.Holds contents) (edit : Edit) :
    (edit.perform store).Holds fun key => if key = edit.key then edit.record? else contents key := by
  have kept key : ((store.delete key).items.map Prod.fst).Nodup :=
    holds.nodup.sublist (filter_sublist.map _)
  have mem key other : other ∈ (store.delete key).items.map Prod.fst ↔
      other ≠ key ∧ (contents other).isSome := by
    rw [← holds.mem_iff]
    simp only [delete, mem_map, mem_filter]
    grind
  cases edit with
  | put key record =>
    refine ⟨fun other => ?_, nodup_cons.mpr ⟨fun listed => ((mem key key).mp listed).1 rfl, kept key⟩,
      fun other => ?_⟩
    · rw [Edit.perform, get_put, holds.get_eq]
      split <;> simp_all [Edit.key, Edit.record?]
    · rw [Edit.perform, put, putBytes, map_cons, mem_cons, mem]
      by_cases same : other = key <;> simp [same, Edit.key, Edit.record?]
  | delete key =>
    refine ⟨fun other => ?_, kept key, fun other => ?_⟩
    · rw [Edit.perform, get_delete, holds.get_eq]
      split <;> simp_all [Edit.key, Edit.record?]
    · rw [Edit.perform, mem]
      by_cases same : other = key <;> simp [same, Edit.key, Edit.record?]

theorem holds_lastOf (edits : List Edit) : (ofEdits edits).Holds (lastOf edits) := by
  induction edits using reverseRecOn with
  | nil => exact ⟨fun _ => rfl, nodup_nil, fun _ => by simp [lastOf, ofEdits, empty]⟩
  | append_singleton edits edit ih =>
    rw [ofEdits, foldl_concat, funext (lastOf_concat edits edit)]
    exact ih.perform edit

theorem Holds.count_eq {store : VerdictStore} (holds : store.Holds contents) :
    store.count = {key | (contents key).isSome ∧ key.head? = some VerdictKey.mark}.ncard := by
  let marked := (store.items.map Prod.fst).filter (·.head? = some VerdictKey.mark)
  have keys : {key | (contents key).isSome ∧ key.head? = some VerdictKey.mark} =
      (marked.toFinset : Set VerdictKey) := by
    ext key
    rw [Finset.mem_coe, mem_toFinset, mem_filter, holds.mem_iff, decide_eq_true_eq,
      Set.mem_ofPred_eq]
  rw [keys, Set.ncard_coe_finset, toFinset_card_of_nodup (holds.nodup.filter _),
    ← countP_eq_length_filter, countP_map]
  rfl

/-- Verdicts are found as they were stored.  A record and its bytes tell each other, and so do a
key and the entry and digest that it is made of.  After any changes a key has the record stored
last, unless it was deleted since.  Of the keys that have one, those that begin with the mark of
verdicts are counted. -/
theorem verdicts_are_found_as_stored :
    (∀ record, VerdictRecord.decode (VerdictRecord.encode record) = .ok record) ∧
    (∀ bytes, 9 ≤ bytes.length →
      ∃ record, VerdictRecord.decode bytes = .ok record ∧ record.encode = bytes) ∧
    (∀ bytes, bytes.length < 9 → VerdictRecord.decode bytes = .error (.short bytes.length)) ∧
    (∀ edits key, (ofEdits edits).get key = .ok (lastOf edits key)) ∧
    (∀ edits, (ofEdits edits).count =
      {key | (lastOf edits key).isSome ∧ key.head? = some VerdictKey.mark}.ncard) ∧
    (∀ entry code, (VerdictKey.ofCode entry code).head? = some VerdictKey.mark) ∧
    ∀ entry other code bytes, VerdictKey.ofCode entry code = VerdictKey.ofCode other bytes →
      entry = other ∧ Blake2b.digest code = Blake2b.digest bytes := by
  refine ⟨VerdictRecord.decode_encode, fun bytes long => ?_, fun bytes short => ?_,
    fun edits => (holds_lastOf edits).get_eq, fun edits => (holds_lastOf edits).count_eq,
    fun _ _ => rfl, fun _ _ _ _ => VerdictKey.ofCode_eq_ofCode_iff.mp⟩
  · rcases VerdictRecord.decode_cases bytes with ⟨short, -⟩ | ⟨-, read⟩
    · exact absurd long (Nat.not_le.mpr short)
    · exact read
  · rcases VerdictRecord.decode_cases bytes with ⟨-, refused⟩ | ⟨long, -⟩
    · exact refused
    · exact absurd short (Nat.not_lt.mpr long)

/-- A key of zeros.  It is not made of code, and nothing keeps it from being used. -/
def zeroKey : VerdictKey :=
  List.replicate 37 0

/-- The record under a key of zeros is found, and it is not counted. -/
theorem unmarked_is_not_counted :
    let edits := [Edit.put zeroKey ⟨.compiled, 0, 0, []⟩]
    (ofEdits edits).get zeroKey = .ok (some ⟨.compiled, 0, 0, []⟩) ∧
      (ofEdits edits).count = 0 ∧ {key | (lastOf edits key).isSome}.ncard = 1 := by
  intro edits
  refine ⟨rfl, rfl, ?_⟩
  have keys : {key | (lastOf edits key).isSome} = {zeroKey} := by
    ext key
    have last : lastOf edits key = _ := lastOf_concat [] _ key
    rw [Set.mem_ofPred_eq, Set.mem_singleton_iff, last]
    split
    next same => exact ⟨fun _ => same, fun _ => rfl⟩
    next other => exact ⟨nofun, fun same => absurd same other⟩
  rw [keys, Set.ncard_singleton]

end VerdictStore
end Dynarec
