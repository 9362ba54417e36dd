import DesignTree.Proofs.Names.Interning
import Mathlib.Data.List.Induction
import Mathlib.Data.Nat.Digits.Defs
/-!
# DesignTree.Proofs.Names.Numbering

Which number a name gets.

The texts of a shard stand in its slots in the order in which a run asks for them first, as far as
there are slots (`texts_tableAt`); in which class a text is asked for, and what goes on in other
shards, does not matter. The slot of a text is therefore the number of different texts of its shard
that were asked for before it (`rank`), and with the shard and the class this is all that a name
says (`internedAt_iff_rank`).
-/

namespace DesignTree

/-! ### In the order of coming first -/

section EraseDups

variable {α : Type} [BEq α] [LawfulBEq α] {l : List α} {a : α}

theorem eraseDups_append_singleton (l : List α) (a : α) :
    (l ++ [a]).eraseDups = if a ∈ l then l.eraseDups else l.eraseDups ++ [a] := by
  rw [List.eraseDups_append, List.cons_removeAll]
  by_cases old : a ∈ l <;> simp [old, List.eraseDups_cons]

theorem nodup_eraseDups (l : List α) : l.eraseDups.Nodup := by
  induction l using List.reverseRecOn with
  | nil => exact List.nodup_nil
  | append_singleton l a ih =>
    rw [eraseDups_append_singleton]
    split
    next => exact ih
    next new =>
      refine List.nodup_append.mpr ⟨ih, List.pairwise_singleton _ a, fun b hb c hc same => ?_⟩
      rw [same, List.mem_singleton.mp hc] at hb
      exact new (List.mem_eraseDups.mp hb)

theorem eraseDups_of_nodup (h : l.Nodup) : l.eraseDups = l := by
  induction l using List.reverseRecOn with
  | nil => rfl
  | append_singleton l a ih =>
    obtain ⟨front, -, apart⟩ := List.nodup_append.mp h
    have new : a ∉ l := fun old => apart a old a (List.mem_singleton_self a) rfl
    rw [eraseDups_append_singleton, if_neg new, ih front]

/-- An element that comes once more changes nothing. -/
theorem eraseDups_again (h : a ∈ l) (m : List α) :
    (l ++ a :: m).eraseDups = (l ++ m).eraseDups := by
  rw [List.eraseDups_append, List.eraseDups_append, List.cons_removeAll, if_neg (by simpa using h)]

end EraseDups

section Ranks

variable {α : Type} [DecidableEq α] {l : List α} {a : α}

theorem takeWhile_append_cons (h : a ∉ l) (m : List α) :
    (l ++ a :: m).takeWhile (· ≠ a) = l := by
  rw [List.takeWhile_append_of_pos, List.takeWhile_cons_of_neg, List.append_nil]
  · simp
  · intro b hb
    exact decide_eq_true fun same => h (same ▸ hb)

/-- What comes later changes nothing before an element. -/
theorem takeWhile_append_of_mem (h : a ∈ l) (m : List α) :
    (l ++ m).takeWhile (· ≠ a) = l.takeWhile (· ≠ a) := by
  obtain ⟨before, rest, rfl, absent⟩ := List.eq_append_cons_of_mem h
  simp only [List.append_assoc, List.cons_append]
  rw [takeWhile_append_cons absent, takeWhile_append_cons absent]

/-- An element stands behind the different ones that come before it, and nowhere else. -/
theorem getElem?_eraseDups_iff (h : a ∈ l) (i : Nat) :
    l.eraseDups[i]? = some a ↔ i = (l.takeWhile (· ≠ a)).eraseDups.length := by
  have stands : l.eraseDups[(l.takeWhile (· ≠ a)).eraseDups.length]? = some a := by
    obtain ⟨before, rest, rfl, absent⟩ := List.eq_append_cons_of_mem h
    rw [takeWhile_append_cons absent, List.eraseDups_append, List.cons_removeAll,
      if_pos (by simpa using absent), List.eraseDups_cons,
      List.getElem?_append_right (Nat.le_refl _)]
    simp
  constructor
  · intro found
    have inside := (List.getElem?_eq_some_iff.mp found).1
    exact (List.getElem?_inj inside (nodup_eraseDups l)).mp (found.trans stands.symm)
  · intro here
    rw [here, stands]

/-- Elements for which there is no room are dropped at once or in the end. -/
theorem take_eraseDups_append (n : Nat) (l : List α) (a : α) :
    (l.eraseDups.take n ++ [a]).eraseDups.take n = (l ++ [a]).eraseDups.take n := by
  have nodup := (nodup_eraseDups l).sublist (List.take_sublist n _)
  simp only [eraseDups_append_singleton, eraseDups_of_nodup nodup]
  by_cases kept : a ∈ l.eraseDups.take n
  · have old : a ∈ l := List.mem_eraseDups.mp (List.mem_of_mem_take kept)
    rw [if_pos kept, if_pos old, List.take_take, Nat.min_self]
  · rw [if_neg kept, List.take_append, List.take_take, Nat.min_self, List.length_take]
    by_cases old : a ∈ l
    · -- It came when there was no room.
      have full : n ≤ l.eraseDups.length := by
        by_contra room
        rw [List.take_of_length_le (by omega)] at kept
        exact kept (List.mem_eraseDups.mpr old)
      rw [if_pos old, Nat.min_eq_left full, Nat.sub_self, List.take_zero, List.append_nil]
    · rw [if_neg old, List.take_append]
      congr 2
      omega

end Ranks

/-! ### The texts of a shard -/

namespace NameShard

/-- The texts of a shard in the order of their slots. -/
def texts (shard : NameShard) : List String := shard.entries.toList.map (·.text)

variable {shard : NameShard} {id : ShardId} {text : String} {cls : CaseClass} {slot : Slot}

theorem length_texts : shard.texts.length = shard.entries.size := by
  rw [texts, List.length_map, Array.length_toList]

theorem getElem?_texts (i : Nat) : shard.texts[i]? = shard.entries[i]?.map (·.text) := by
  rw [texts, List.getElem?_map, Array.getElem?_toList]

/-- The map of a shard has a text at the slot at which the text stands. -/
theorem WellFormed.slots_eq_some_iff (wf : shard.WellFormed id) :
    shard.slots[text]? = some slot ↔ shard.texts[slot.val]? = some text := by
  rw [wf.slot_iff, getElem?_texts, Option.map_eq_some_iff]

theorem WellFormed.notMem_texts (wf : shard.WellFormed id) (h : shard.slots[text]? = none) :
    text ∉ shard.texts := by
  intro present
  obtain ⟨i, hi, htext⟩ := List.getElem_of_mem present
  let slot : Slot := ⟨i, Nat.lt_of_lt_of_le hi (length_texts ▸ wf.size_le)⟩
  have stands : shard.texts[slot.val]? = some text := List.getElem?_eq_some_iff.mpr ⟨hi, htext⟩
  have found := wf.slots_eq_some_iff.mpr stands
  rw [h] at found
  cases found

/-- A text that is stored stands where it stood, or else behind all others. -/
theorem texts_store (wf : shard.WellFormed id) (h : shard.slotFor text = .ok slot) :
    (shard.store text cls slot).texts =
      if text ∈ shard.texts then shard.texts else shard.texts ++ [text] := by
  obtain ⟨entry, stores⟩ := stores_store wf h cls
  refine List.ext_getElem? fun i => ?_
  rw [getElem?_texts, stores.entries]
  obtain hslot | ⟨hslot, hsize⟩ := slotFor_eq_ok h
  · have stands := wf.slots_eq_some_iff.mp hslot
    rw [if_pos (List.mem_of_getElem? stands)]
    split
    next here => rw [← here, stands, Option.map_some, stores.text_eq]
    next => rw [getElem?_texts]
  · rw [if_neg (wf.notMem_texts hslot)]
    split
    next here =>
      rw [← here, hsize, ← length_texts, List.getElem?_concat_length, Option.map_some,
        stores.text_eq]
    next elsewhere =>
      rw [← getElem?_texts, List.getElem?_append]
      split
      next => rfl
      next outside =>
        rw [length_texts] at outside
        rw [List.getElem?_eq_none (by rw [length_texts]; omega),
          List.getElem?_eq_none (by rw [length_texts, List.length_singleton]; omega)]

/-- One more text, if it is new and there is room for it. -/
theorem WellFormed.take_eraseDups_append (wf : shard.WellFormed id) (text : String) :
    (shard.texts ++ [text]).eraseDups.take slotCount =
      if text ∈ shard.texts then shard.texts else (shard.texts ++ [text]).take slotCount := by
  have nodup : shard.texts.Nodup := wf.nodup_texts
  rw [eraseDups_append_singleton, eraseDups_of_nodup nodup]
  split
  next => exact List.take_of_length_le (length_texts ▸ wf.size_le)
  next => rfl

end NameShard

/-- The text that a request is to intern. -/
def NameRequest.text? : NameRequest → Option String
  | .intern text _ => some text
  | .get .. => none
  | .resolve _ => none

namespace NameTable

variable {table : NameTable} {requests : List NameRequest} {point : Nat} {text : String}
  {cls : CaseClass} {name : Name}

/-! ### One request -/

/-- The texts of the shard in which a text belongs, after it was asked for, whatever the answer. -/
theorem texts_serve_intern (wf : table.WellFormed) (text : String) (cls : CaseClass) :
    ((table.serve (.intern text cls)).2.shard (home text)).texts =
      ((table.shard (home text)).texts ++ [text]).eraseDups.take slotCount := by
  have shard := wf (home text)
  rw [shard.take_eraseDups_append]
  obtain ⟨slot, hfind, hintern⟩ | ⟨slot, hslot, hintern⟩ | ⟨count, hslot, hintern⟩ :=
    intern_cases table text cls
  · -- The text was interned in this class, so it stands in the shard.
    obtain ⟨entry, hentry, htext, -⟩ := shard.find?_eq_some_iff.mp hfind
    have stands := shard.slots_eq_some_iff.mp
      ((shard.slot_iff text slot).mpr ⟨entry, hentry, htext⟩)
    simp only [serve, hintern, if_pos (List.mem_of_getElem? stands)]
  · have room : ((table.shard (home text)).store text cls slot).entries.size ≤ slotCount :=
      (NameShard.wellFormed_store shard rfl hslot).size_le
    rw [← NameShard.length_texts, NameShard.texts_store shard hslot] at room
    simp only [serve, hintern, shard_store, if_true, NameShard.texts_store shard hslot]
    split
    next => rfl
    next absent =>
      rw [if_neg absent] at room
      exact (List.take_of_length_le room).symm
  · -- The text is refused: as a new one behind a full shard it would be cut off.
    obtain ⟨absent, -, full⟩ := NameShard.slotFor_eq_error hslot
    rw [← NameShard.length_texts] at full
    simp only [serve, hintern, if_neg (shard.notMem_texts absent)]
    rw [List.take_append_of_le_length full, List.take_of_length_le]
    exact NameShard.length_texts ▸ shard.size_le

/-- A request to intern a text changes no shard but its own. -/
theorem shard_serve_intern {id : ShardId} (h : home text ≠ id) :
    (table.serve (.intern text cls)).2.shard id = table.shard id := by
  obtain ⟨slot, -, hintern⟩ | ⟨slot, -, hintern⟩ | ⟨count, -, hintern⟩ :=
    intern_cases table text cls
  · simp only [serve, hintern]
  · simp only [serve, hintern, shard_store, if_neg h]
  · simp only [serve, hintern]

/-! ### A run -/

/-- The texts of one shard that a run is to intern, in the order of the requests and as often as
there are any. The empty text comes before all requests. -/
def textsOf (requests : List NameRequest) (id : ShardId) : List String :=
  ("" :: requests.filterMap NameRequest.text?).filter (home · = id)

/-- How many different texts of its shard a run is to intern before a text, in either class. -/
def rank (requests : List NameRequest) (text : String) : Nat :=
  ((textsOf requests (home text)).takeWhile (· ≠ text)).eraseDups.length

theorem textsOf_append (front back : List NameRequest) (id : ShardId) :
    textsOf (front ++ back) id =
      textsOf front id ++ (back.filterMap NameRequest.text?).filter (home · = id) := by
  rw [textsOf, textsOf, List.filterMap_append, ← List.cons_append, List.filter_append]

theorem mem_textsOf (h : requests[point]? = some (.intern text cls)) :
    text ∈ textsOf requests (home text) := by
  have asked : text ∈ requests.filterMap NameRequest.text? :=
    List.mem_filterMap.mpr ⟨_, List.mem_of_getElem? h, rfl⟩
  simp [textsOf, asked]

/-- What the texts of the shards are at a point of a run. -/
theorem texts_tableAt (requests : List NameRequest) (point : Nat) (id : ShardId) :
    ((tableAt requests point).shard id).texts =
      (textsOf (requests.take point) id).eraseDups.take slotCount := by
  induction point with
  | zero =>
    simp only [List.take_zero, tableAt, serveAll, shard_empty, textsOf, List.filterMap_nil]
    by_cases hid : home "" = id
    · have own : [""].filter (home · = id) = [""] := by simp [hid]
      rw [if_pos (home_empty ▸ hid), own]
      rfl
    · have other : [""].filter (home · = id) = [] := by simp [hid]
      rw [if_neg (home_empty ▸ hid), other]
      rfl
  | succ point ih =>
    have front : requests.take (point + 1) = requests.take point ++ requests[point]?.toList :=
      List.take_add_one
    rw [tableAt_succ, front, textsOf_append]
    cases hrequest : requests[point]? with
    | none => simpa using ih
    | some request =>
      cases request with
      | get text cls => simpa [serve, NameRequest.text?, List.filterMap_cons] using ih
      | resolve name => simpa [serve, NameRequest.text?, List.filterMap_cons] using ih
      | intern text cls =>
        by_cases hid : home text = id
        · subst hid
          have wf := (reflects_tableAt requests point).wellFormed
          simp only [texts_serve_intern wf, ih, take_eraseDups_append]
          simp [NameRequest.text?]
        · rw [shard_serve_intern hid]
          simpa [NameRequest.text?, List.filterMap_cons, hid] using ih

/-- A text that was asked for has its number from then on. -/
theorem rank_take (h : text ∈ textsOf (requests.take point) (home text)) :
    rank (requests.take point) text = rank requests text := by
  have split := textsOf_append (requests.take point) (requests.drop point) (home text)
  rw [List.take_append_drop] at split
  rw [rank, rank, split, takeWhile_append_of_mem h]

/-- A text that was asked for stands at its number, if there is a slot with this number. -/
theorem getElem?_texts_tableAt (h : text ∈ textsOf (requests.take point) (home text)) (i : Nat) :
    ((tableAt requests point).shard (home text)).texts[i]? = some text ↔
      i < slotCount ∧ i = rank requests text := by
  rw [texts_tableAt, List.getElem?_take]
  split
  next room => rw [getElem?_eraseDups_iff h, ← rank, rank_take h, and_iff_right room]
  next full => simp [full]

/-- The request is among those that were served at the next point. -/
theorem mem_textsOf_take_succ (h : requests[point]? = some (.intern text cls)) :
    text ∈ textsOf (requests.take (point + 1)) (home text) := by
  have asked : (requests.take (point + 1))[point]? = some (.intern text cls) := by
    rw [List.getElem?_take, if_pos (Nat.lt_succ_self point), h]
  exact mem_textsOf asked

/-- A name says the class and the shard of its text, and how many different texts of this shard
came before it. -/
theorem InternedAt.name_eq (h : InternedAt requests point text cls name) :
    name.caseClass = cls ∧ name.shard = home text ∧ name.slot.val = rank requests text := by
  have wf := (reflects_tableAt requests (point + 1)).wellFormed
  obtain ⟨resolved, hclass⟩ := (get?_eq_some_iff wf).mp
    (get?_tableAt_iff.mpr (h.issuedBefore (Nat.lt_succ_self point)))
  obtain ⟨entry, hentry, htext, -⟩ := resolve_eq_ok_iff.mp resolved
  have hshard : home text = name.shard := htext ▸ (wf name.shard).home _ entry hentry
  have stands : ((tableAt requests (point + 1)).shard (home text)).texts[name.slot.val]? =
      some text := by
    rw [hshard, NameShard.getElem?_texts, hentry, Option.map_some, htext]
  have counted := (getElem?_texts_tableAt (mem_textsOf_take_succ h.1) _).mp stands
  exact ⟨hclass, hshard.symm, counted.2⟩

/-- Only a text whose number is no slot is refused. -/
theorem refused_of_intern {e : NameError} (h : requests[point]? = some (.intern text cls))
    (refused : (tableAt requests point).intern text cls = .error e) :
    e = .shardOverflow (home text) slotCount ∧ slotCount ≤ rank requests text := by
  have wf := (reflects_tableAt requests point).wellFormed
  obtain ⟨rfl, full⟩ := full_of_intern wf refused
  refine ⟨rfl, Nat.le_of_not_lt fun room => ?_⟩
  -- The text would stand in the table after the request, which left the table as it was.
  have stands := (getElem?_texts_tableAt (mem_textsOf_take_succ h) _).mpr ⟨room, rfl⟩
  rw [tableAt_succ, h] at stands
  simp only [serve, refused] at stands
  exact (wf (home text)).notMem_texts full.absent (List.mem_of_getElem? stands)

/-- A request to intern a text is answered by the name that has the class that is asked for, the
shard of the text and its number there. -/
theorem internedAt_iff_rank (h : requests[point]? = some (.intern text cls)) :
    InternedAt requests point text cls name ↔
      name.caseClass = cls ∧ name.shard = home text ∧ name.slot.val = rank requests text := by
  refine ⟨fun interned => interned.name_eq, fun ⟨hclass, hshard, hslot⟩ => ?_⟩
  cases hintern : (tableAt requests point).intern text cls with
  | ok result =>
    have interned := (internedAt_iff h).mpr ⟨rfl, result.2, hintern⟩
    obtain ⟨answered, found, numbered⟩ := interned.name_eq
    have same : result.1 = name := by
      rw [Name.mk.injEq]
      exact ⟨answered.trans hclass.symm, found.trans hshard.symm,
        Fin.ext (numbered.trans hslot.symm)⟩
    exact same ▸ interned
  | error e =>
    have full := (refused_of_intern h hintern).2
    omega

/-- Runs that have the different texts of a shard in the same order give them the same numbers. -/
theorem rank_congr {others : List NameRequest} (h : text ∈ textsOf requests (home text))
    (same : (textsOf requests (home text)).eraseDups = (textsOf others (home text)).eraseDups) :
    rank requests text = rank others text := by
  have there : text ∈ textsOf others (home text) := by
    rw [← List.mem_eraseDups, ← same, List.mem_eraseDups]
    exact h
  rw [rank, rank, ← getElem?_eraseDups_iff there, ← same, getElem?_eraseDups_iff h]

/-- One more request for a text, in either class, leaves the order of the different texts. -/
theorem eraseDups_textsOf_again {front back : List NameRequest} (cls : CaseClass)
    (h : text ∈ textsOf front (home text)) (id : ShardId) :
    (textsOf (front ++ .intern text cls :: back) id).eraseDups =
      (textsOf (front ++ back) id).eraseDups := by
  rw [textsOf_append, textsOf_append, List.filterMap_cons]
  by_cases hid : home text = id
  · subst hid
    simp only [NameRequest.text?, List.filter_cons, decide_true, if_true]
    exact eraseDups_again h _
  · simp [NameRequest.text?, hid]

/-! ### The number of a shard -/

/-- The hash is the exact value of the polynomial, as far as it fits into a word. -/
theorem toNat_leadingHash (bytes : List UInt8) :
    (leadingHash bytes).toNat =
      Nat.ofDigits 31 (bytes.map UInt8.toNat).reverse % UInt32.size := by
  induction bytes using List.reverseRecOn with
  | nil => rfl
  | append_singleton bytes byte ih =>
    have step : leadingHash (bytes ++ [byte]) = leadingHash bytes * 31 + byte.toUInt32 := by
      simp [leadingHash]
    rw [step, UInt32.toNat_add, UInt32.toNat_mul, ih, List.map_append, List.reverse_append,
      List.map_singleton, List.reverse_singleton, List.singleton_append, Nat.ofDigits_cons]
    simp [Nat.add_comm, Nat.mul_comm]

/-- As a word has a multiple of as many values as there are shards, it does not matter that the
hash is computed in words. -/
theorem val_home (text : String) :
    (home text).val =
      Nat.ofDigits 31 ((leadingBytes text).map UInt8.toNat).reverse % shardCount := by
  have hashed : (home text).val = (leadingHash (leadingBytes text)).toNat % shardCount := rfl
  rw [hashed, toNat_leadingHash, Nat.mod_mod_of_dvd _ (by decide)]

theorem rank_empty (requests : List NameRequest) : rank requests "" = 0 := by
  simp [rank, textsOf]

theorem toNat_raw_eq (name : Name) :
    name.raw.toNat =
      (if name.caseClass = .sensitive then 2 ^ 31 else 0) + name.shard.val * 2 ^ 27 +
        name.slot.val := by
  rw [Name.toNat_raw, Name.code]
  cases name.caseClass <;> simp [CaseClass.bit]

/-- Which tags a run gives out. The shard of a text is the exact value of the polynomial of its
first eight bytes, up to a multiple of sixteen. A tag is made of the class, this shard, and the
number of different texts of the shard that the run was to intern before, in either class; the empty
text comes before all. Only a text whose number is no slot is refused. So tags are the same in two
runs with the same requests for texts of the shard; both classes of a text have one slot; and a text
that is asked for once more, in either class, changes no tag of any text. -/
theorem tags_count_texts_of_shard (requests : List NameRequest) :
    (∀ text, (home text).val =
      Nat.ofDigits 31 ((leadingBytes text).map UInt8.toNat).reverse % shardCount) ∧
    (∀ i t c n, InternedAt requests i t c n → n.raw.toNat =
      (if c = .sensitive then 2 ^ 31 else 0) + (home t).val * 2 ^ 27 + rank requests t) ∧
    (∀ i t c, requests[i]? = some (.intern t c) → (∃ n, InternedAt requests i t c n) ∨
      slotCount ≤ rank requests t ∧
        (tableAt requests i).intern t c = .error (.shardOverflow (home t) slotCount)) ∧
    (home "" = 0 ∧ rank requests "" = 0) ∧
    (∀ i j t c d n, InternedAt requests i t c n → requests[j]? = some (.intern t d) →
      InternedAt requests j t d { n with caseClass := d }) ∧
    (∀ others i j t c n, textsOf requests (home t) = textsOf others (home t) →
      InternedAt requests i t c n → others[j]? = some (.intern t c) →
        InternedAt others j t c n) ∧
    ∀ front back : List NameRequest, requests = front ++ back → ∀ (i j k : Nat) t d e s c n,
      front[k]? = some (.intern t e) → InternedAt requests i s c n →
        (front ++ .intern t d :: back)[j]? = some (.intern s c) →
          InternedAt (front ++ .intern t d :: back) j s c n := by
  refine ⟨val_home, fun i t c n interned => ?_, fun i t c asked => ?_,
    ⟨home_empty, rank_empty requests⟩, fun i j t c d n interned asked => ?_,
    fun others i j t c n same interned asked => ?_, ?_⟩
  · obtain ⟨hclass, hshard, hslot⟩ := interned.name_eq
    rw [toNat_raw_eq, hclass, hshard, hslot]
  · cases hintern : (tableAt requests i).intern t c with
    | ok result => exact .inl ⟨result.1, (internedAt_iff asked).mpr ⟨rfl, result.2, hintern⟩⟩
    | error e =>
      obtain ⟨rfl, full⟩ := refused_of_intern asked hintern
      exact .inr ⟨full, rfl⟩
  · obtain ⟨-, hshard, hslot⟩ := interned.name_eq
    exact (internedAt_iff_rank asked).mpr ⟨rfl, hshard, hslot⟩
  · obtain ⟨hclass, hshard, hslot⟩ := interned.name_eq
    have numbered := rank_congr (mem_textsOf interned.1) (congrArg List.eraseDups same)
    exact (internedAt_iff_rank asked).mpr ⟨hclass, hshard, hslot.trans numbered⟩
  · rintro front back rfl i j k t d e s c n before interned asked
    obtain ⟨hclass, hshard, hslot⟩ := interned.name_eq
    have numbered := rank_congr (mem_textsOf interned.1)
      (eraseDups_textsOf_again d (mem_textsOf before) (home s)).symm
    exact (internedAt_iff_rank asked).mpr ⟨hclass, hshard, hslot.trans numbered⟩

theorem home_q : home "q" = 1 := by
  decide +kernel

/-- Two texts of one shard, in two runs that ask for the same texts of it, and once more with a
repetition. -/
theorem tags_of_two_texts_of_one_shard :
    let front : List NameRequest := [.intern "q" .sensitive]
    let back : List NameRequest :=
      [.intern "" .sensitive, .intern "a" .insensitive, .intern "a" .sensitive]
    let others : List NameRequest :=
      [.intern "q" .insensitive, .intern "a" .sensitive, .get "q" .sensitive,
        .intern "a" .insensitive]
    let plain : Name := ⟨.insensitive, 1, 1⟩
    InternedAt (front ++ back) 2 "a" .insensitive plain ∧
      plain.raw.toNat = 2 ^ 27 + rank (front ++ back) "a" ∧
      ((∃ n, InternedAt (front ++ back) 3 "a" .sensitive n) ∨
        slotCount ≤ rank (front ++ back) "a" ∧
          (tableAt (front ++ back) 3).intern "a" .sensitive =
            .error (.shardOverflow (home "a") slotCount)) ∧
      InternedAt (front ++ back) 3 "a" .sensitive { plain with caseClass := .sensitive } ∧
      InternedAt others 3 "a" .insensitive plain ∧
      InternedAt (front ++ .intern "q" .insensitive :: back) 3 "a" .insensitive plain := by
  intro front back others plain
  have interned : InternedAt (front ++ back) 2 "a" .insensitive plain := by
    simp [front, back, plain, InternedAt, tableAt, serveAll, serve, intern, home_a, home_q,
      home_empty, shard_store, shard_empty, Name.empty, NameShard.find?, NameShard.slotFor,
      NameShard.empty, NameShard.store, NameEntry.fresh, NameEntry.withClass, NameEntry.holds]
  have same : textsOf (front ++ back) (home "a") = textsOf others (home "a") := by
    simp [front, back, others, textsOf, List.filterMap_cons, NameRequest.text?, home_a, home_q,
      home_empty, Name.empty]
  obtain ⟨-, tag, answered, -, either, alike, again⟩ := tags_count_texts_of_shard (front ++ back)
  refine ⟨interned, ?_, answered 3 "a" .sensitive rfl, either 2 3 _ _ _ _ interned rfl,
    alike others 2 3 _ _ _ same interned rfl,
    again front back rfl 2 3 0 "q" _ _ _ _ _ rfl interned rfl⟩
  have counted := tag 2 _ _ _ interned
  simpa [home_a] using counted

end NameTable

end DesignTree
