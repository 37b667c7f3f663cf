import Steam2Fs.Index

/-!
# The names an index gives its blobs

A version directory is named by its version number, with the crc appended when
several blobs of the depot share the number; a date link is a time stamp and
that name. Within a depot two blobs have one name exactly when they have the
same version and crc, and then the name maps keep the later one only.
-/

namespace Text

/-- ASCII, and neither of the separators of the generated names. -/
def Digitlike (c : Char) : Prop := c.toNat < 0x80 ∧ c ≠ '-' ∧ c ≠ '_'

theorem digitlike_of_mem_toDigits {radix n : ℕ} (h1 : 1 < radix) (h16 : radix ≤ 16) {c : Char}
    (hc : c ∈ Nat.toDigits radix n) : Digitlike c := by
  obtain ⟨k, hk, rfl⟩ := digit_of_mem_toDigits h1 hc
  have hk16 : k < 16 := by omega
  clear hc
  unfold Digitlike
  interval_cases k <;> decide

theorem digitlike_of_mem_padZero {width : ℕ} {s : Str} (hs : ∀ c ∈ s, Digitlike c) {c : Char}
    (hc : c ∈ padZero width s) : Digitlike c := by
  rcases List.mem_append.mp hc with hc | hc
  · rw [List.eq_of_mem_replicate hc]
    unfold Digitlike
    decide
  · exact hs c hc

theorem digitlike_decimal {n : ℕ} : ∀ c ∈ decimal n, Digitlike c :=
  fun _ hc => digitlike_of_mem_toDigits (by norm_num) (by norm_num) hc

theorem digitlike_hexLower {n : ℕ} : ∀ c ∈ hexLower n, Digitlike c :=
  fun _ hc => digitlike_of_mem_toDigits (by norm_num) (by norm_num) hc

theorem decimal_injective : Function.Injective decimal :=
  toDigits_injective (by norm_num) (by norm_num)

end Text

namespace Steam2Fs.Index
open Text

section Depots
variable {dates : Str → Option Instant}

theorem mem_keys_pushBlob {depot k : UInt32} {id : ℕ} {ds : List (UInt32 × Depot)}
    (h : k ∈ (pushBlob depot id ds).map Prod.fst) : k = depot ∨ k ∈ ds.map Prod.fst := by
  induction ds with
  | nil => exact Or.inl (by simpa [pushBlob] using h)
  | cons e es ih =>
    rw [pushBlob] at h
    split_ifs at h with hlt heq
    · simpa using h
    · exact Or.inr (by simpa using h)
    · rcases List.mem_cons.mp h with h | h
      · exact Or.inr (by simp [h])
      · rcases ih h with h | h
        · exact Or.inl h
        · exact Or.inr (by simp [h])

theorem pushBlob_sorted {depot : UInt32} {id : ℕ} {ds : List (UInt32 × Depot)}
    (h : (ds.map Prod.fst).Pairwise (· < ·)) :
    ((pushBlob depot id ds).map Prod.fst).Pairwise (· < ·) := by
  induction ds with
  | nil => simp [pushBlob]
  | cons e es ih =>
    obtain ⟨key, dep⟩ := e
    rw [List.map_cons, List.pairwise_cons] at h
    rw [pushBlob]
    split_ifs with hlt heq
    · rw [List.map_cons, List.pairwise_cons]
      refine ⟨fun k hk => ?_, by rw [List.map_cons, List.pairwise_cons]; exact h⟩
      rcases List.mem_cons.mp hk with rfl | hk
      · exact hlt
      · exact UInt32.lt_trans hlt (h.1 k hk)
    · rw [List.map_cons, List.pairwise_cons]
      exact h
    · rw [List.map_cons, List.pairwise_cons]
      refine ⟨fun k hk => ?_, ih h.2⟩
      rcases mem_keys_pushBlob hk with rfl | hk
      · dsimp only
        rw [UInt32.lt_iff_toNat_lt] at hlt ⊢
        have : k.toNat ≠ key.toNat := fun hc => heq (UInt32.toNat_inj.mp hc)
        omega
      · exact h.1 k hk

/-- Depots are in ascending order and list no blob twice. -/
structure Ordered (idx : Index) : Prop where
  keys : (idx.depots.map Prod.fst).Pairwise (· < ·)
  nodup : ∀ e ∈ idx.depots, e.2.blobs.Nodup

theorem nodup_pushBlob {depot : UInt32} {id : ℕ} {ds : List (UInt32 × Depot)}
    (h : ∀ e ∈ ds, e.2.blobs.Nodup ∧ id ∉ e.2.blobs) {e : UInt32 × Depot}
    (he : e ∈ pushBlob depot id ds) : e.2.blobs.Nodup := by
  induction ds with
  | nil =>
    simp only [pushBlob, List.mem_singleton] at he
    subst he
    simp
  | cons x xs ih =>
    rw [pushBlob] at he
    split_ifs at he with hlt heq
    · rcases List.mem_cons.mp he with rfl | he
      · simp
      · exact (h e he).1
    · rcases List.mem_cons.mp he with rfl | he
      · obtain ⟨hn, hid⟩ := h x (by simp)
        rw [List.nodup_append]
        exact ⟨hn, by simp, fun a ha b hb => by
          rw [List.mem_singleton.mp hb]
          rintro rfl
          exact hid ha⟩
      · exact (h e (by simp [he])).1
    · rcases List.mem_cons.mp he with rfl | he
      · exact (h _ (by simp)).1
      · exact ih (fun y hy => h y (by simp [hy])) he

theorem Ordered.addBlob {idx : Index} (h : idx.Ordered) (hr : idx.InRange) (e : DirEntry) :
    (idx.addBlob dates e).Ordered := by
  unfold Index.addBlob
  split
  · exact h
  · refine ⟨pushBlob_sorted h.keys, fun x hx => ?_⟩
    refine nodup_pushBlob (fun y hy => ⟨h.nodup y hy, fun hid => ?_⟩) hx
    exact absurd (hr.depots y hy _ hid) (lt_irrefl _)

theorem addDat_depots (idx : Index) (e : DirEntry) : (idx.addDat e).depots = idx.depots := by
  unfold Index.addDat
  dsimp only
  split
  · rfl
  · rfl

theorem addDat_blobs (idx : Index) (e : DirEntry) : (idx.addDat e).blobs = idx.blobs := by
  unfold Index.addDat
  dsimp only
  split
  · rfl
  · rfl

/-- What holds of the empty index and is kept by every entry holds of the index
before its depots are finished. -/
theorem collect_induction (dates : Str → Option Instant) {P : Index → Prop} (hempty : P empty)
    (hblob : ∀ idx e, P idx → P (idx.addBlob dates e)) (hdat : ∀ idx e, P idx → P (idx.addDat e))
    (blobEntries datEntries : List DirEntry) :
    P (datEntries.foldl addDat (blobEntries.foldl (addBlob dates) empty)) := by
  have hblobs : P (blobEntries.foldl (addBlob dates) empty) :=
    List.foldlRecOn blobEntries _ hempty fun idx h e _ => hblob idx e h
  exact List.foldlRecOn datEntries _ hblobs fun idx h e _ => hdat idx e h

theorem load_ordered (blobEntries datEntries : List DirEntry) :
    (load dates blobEntries datEntries).Ordered := by
  have hstart : empty.Ordered ∧ empty.InRange :=
    ⟨⟨by simp [empty], by simp [empty]⟩, by simp [empty], by simp [empty], by simp [empty]⟩
  have h := (collect_induction dates (P := fun idx => idx.Ordered ∧ idx.InRange) hstart
    (fun idx e h => ⟨h.1.addBlob h.2 e, h.2.addBlob e⟩)
    (fun idx e h => ⟨by
      refine ⟨?_, ?_⟩
      · rw [addDat_depots]
        exact h.1.keys
      · rw [addDat_depots]
        exact h.1.nodup, h.2.addDat e⟩) blobEntries datEntries).1
  constructor
  · rw [load, List.map_map]
    exact h.keys
  · intro e he
    obtain ⟨x, hx, rfl⟩ := List.mem_map.mp he
    exact ((finishDepot_blobs _ _).nodup_iff).mpr (h.nodup x hx)

def Filed (idx : Index) : Prop :=
  ∀ e ∈ idx.depots, ∀ b ∈ e.2.blobs, ∃ entry, idx.blobs[b]? = some entry ∧ entry.depot = e.1

theorem Filed.addBlob {idx : Index} (h : idx.Filed) (e : DirEntry) :
    (idx.addBlob dates e).Filed := by
  unfold Index.addBlob
  split
  · exact h
  · intro x hx b hb
    rcases mem_pushBlob hx hb with ⟨rfl, hdepot⟩ | ⟨y, hy, hkey, hb'⟩
    · exact ⟨_, List.getElem?_concat_length, hdepot.symm⟩
    · obtain ⟨entry, hentry, hdepot⟩ := h y hy b hb'
      have hlt := (List.getElem?_eq_some_iff.mp hentry).1
      exact ⟨entry, (List.getElem?_append_left hlt).trans hentry, hdepot.trans hkey⟩

theorem load_filed (blobEntries datEntries : List DirEntry) :
    (load dates blobEntries datEntries).Filed := by
  have hstart : empty.Filed := by simp [Filed, empty]
  have h := collect_induction dates hstart (fun idx e h => h.addBlob e)
    (fun idx e h => by
      unfold Filed
      rw [addDat_depots, addDat_blobs]
      exact h) blobEntries datEntries
  intro x hx b hb
  obtain ⟨y, hy, rfl⟩ := List.mem_map.mp hx
  exact h y hy b ((finishDepot_blobs _ _).mem_iff.mp hb)

theorem pushBlob_holds (depot : UInt32) (id : ℕ) (ds : List (UInt32 × Depot)) :
    ∃ e ∈ pushBlob depot id ds, e.1 = depot ∧ id ∈ e.2.blobs := by
  induction ds with
  | nil => exact ⟨_, List.mem_singleton_self _, rfl, List.mem_singleton_self _⟩
  | cons x xs ih =>
    rw [pushBlob]
    split_ifs with hlt heq
    · exact ⟨_, List.mem_cons_self, rfl, List.mem_singleton_self _⟩
    · exact ⟨_, List.mem_cons_self, heq.symm, by simp⟩
    · obtain ⟨e, he, hkey, hid⟩ := ih
      exact ⟨e, List.mem_cons_of_mem _ he, hkey, hid⟩

theorem pushBlob_keeps (depot : UInt32) (id : ℕ) {ds : List (UInt32 × Depot)}
    {e : UInt32 × Depot} (he : e ∈ ds) :
    ∃ e' ∈ pushBlob depot id ds, e'.1 = e.1 ∧ ∀ b ∈ e.2.blobs, b ∈ e'.2.blobs := by
  induction ds with
  | nil => cases he
  | cons x xs ih =>
    rw [pushBlob]
    split_ifs with hlt heq
    · exact ⟨e, List.mem_cons_of_mem _ he, rfl, fun b hb => hb⟩
    · rcases List.mem_cons.mp he with rfl | he
      · exact ⟨_, List.mem_cons_self, rfl, fun b hb => List.mem_append_left _ hb⟩
      · exact ⟨e, List.mem_cons_of_mem _ he, rfl, fun b hb => hb⟩
    · rcases List.mem_cons.mp he with rfl | he
      · exact ⟨_, List.mem_cons_self, rfl, fun b hb => hb⟩
      · obtain ⟨e', he', hkey, hsub⟩ := ih he
        exact ⟨e', List.mem_cons_of_mem _ he', hkey, hsub⟩

theorem pushBlob_nonempty {depot : UInt32} {id : ℕ} {ds : List (UInt32 × Depot)}
    (h : ∀ e ∈ ds, e.2.blobs ≠ []) {e : UInt32 × Depot} (he : e ∈ pushBlob depot id ds) :
    e.2.blobs ≠ [] := by
  induction ds with
  | nil =>
    rw [pushBlob, List.mem_singleton] at he
    subst he
    exact List.cons_ne_nil _ _
  | cons x xs ih =>
    rw [pushBlob] at he
    split_ifs at he with hlt heq
    · rcases List.mem_cons.mp he with rfl | he
      · exact List.cons_ne_nil _ _
      · exact h e he
    · rcases List.mem_cons.mp he with rfl | he
      · exact List.append_ne_nil_of_right_ne_nil _ (List.cons_ne_nil _ _)
      · exact h e (List.mem_cons_of_mem _ he)
    · rcases List.mem_cons.mp he with rfl | he
      · exact h _ List.mem_cons_self
      · exact ih (fun y hy => h y (List.mem_cons_of_mem _ hy)) he

/-- Every blob is listed by a depot of its number, and no depot is empty. -/
structure Catalogued (idx : Index) : Prop where
  holds : ∀ b e, idx.blobs[b]? = some e → ∃ x ∈ idx.depots, x.1 = e.depot ∧ b ∈ x.2.blobs
  nonempty : ∀ x ∈ idx.depots, x.2.blobs ≠ []

theorem Catalogued.addBlob {idx : Index} (h : idx.Catalogued) (e : DirEntry) :
    (idx.addBlob dates e).Catalogued := by
  unfold Index.addBlob
  split
  · exact h
  · refine ⟨fun b entry hb => ?_, fun x hx => pushBlob_nonempty h.nonempty hx⟩
    dsimp only at hb ⊢
    by_cases hlt : b < idx.blobs.length
    · rw [List.getElem?_append_left hlt] at hb
      obtain ⟨x, hx, hkey, hmem⟩ := h.holds b entry hb
      obtain ⟨y, hy, hkey', hsub⟩ := pushBlob_keeps _ idx.blobs.length hx
      exact ⟨y, hy, hkey'.trans hkey, hsub b hmem⟩
    · obtain ⟨hlen, -⟩ := List.getElem?_eq_some_iff.mp hb
      rw [List.length_append, List.length_singleton] at hlen
      have hid : b = idx.blobs.length := by omega
      rw [hid, List.getElem?_concat_length, Option.some.injEq] at hb
      rw [← hb, hid]
      exact pushBlob_holds _ _ _

theorem load_catalogued (blobEntries datEntries : List DirEntry) :
    (load dates blobEntries datEntries).Catalogued := by
  have hstart : empty.Catalogued := ⟨by simp [empty], by simp [empty]⟩
  have h := collect_induction dates hstart (fun idx e h => h.addBlob e)
    (fun idx e h => by
      refine ⟨?_, ?_⟩
      · rw [addDat_blobs, addDat_depots]
        exact h.holds
      · rw [addDat_depots]
        exact h.nonempty) blobEntries datEntries
  refine ⟨fun b e hb => ?_, fun x hx => ?_⟩
  · obtain ⟨x, hx, hkey, hmem⟩ := h.holds b e hb
    exact ⟨_, List.mem_map.mpr ⟨x, hx, rfl⟩, hkey, (finishDepot_blobs _ _).mem_iff.mpr hmem⟩
  · obtain ⟨y, hy, rfl⟩ := List.mem_map.mp hx
    intro hnil
    apply h.nonempty y hy
    exact List.nil_perm.mp (hnil ▸ finishDepot_blobs _ y.2)

theorem load_finished (blobEntries datEntries : List DirEntry) {e : UInt32 × Depot}
    (he : e ∈ (load dates blobEntries datEntries).depots) :
    ∃ dep, e.2 = (load dates blobEntries datEntries).finishDepot dep := by
  obtain ⟨x, -, rfl⟩ := List.mem_map.mp he
  exact ⟨x.2, rfl⟩

end Depots

section Lists

theorem lookup_of_mem {κ ν : Type} [BEq κ] [LawfulBEq κ] {l : List (κ × ν)}
    (hl : (l.map Prod.fst).Nodup) {k : κ} {v : ν} (h : (k, v) ∈ l) : l.lookup k = some v := by
  induction l with
  | nil => simp at h
  | cons e es ih =>
    rw [List.map_cons, List.nodup_cons] at hl
    rcases List.mem_cons.mp h with rfl | h
    · simp
    · have hne : (k == e.1) = false := by
        apply beq_false_of_ne
        rintro rfl
        exact hl.1 (List.mem_map.mpr ⟨_, h, rfl⟩)
      rw [List.lookup_cons, hne]
      exact ih hl.2 h

theorem zip_map_self {α β : Type} (g : α → β) (l : List α) :
    (l.map g).zip l = l.map fun a => (g a, a) := by
  induction l with
  | nil => rfl
  | cons a as ih => simp [ih]

end Lists

section Names
variable {idx : Index} {dep : Depot}

theorem dash_not_mem_decimal (n : ℕ) : '-' ∉ decimal n :=
  fun h => (digitlike_decimal _ h).2.1 rfl

theorem hex8_injective : Function.Injective fun n => padZero 8 (hexLower n) :=
  padZero_toDigits_injective (by norm_num) (by norm_num) 8

theorem name_eq_iff {bs : List ℕ} {b c : ℕ} (hb : b ∈ bs) (hc : c ∈ bs) (hbc : b ≠ c) :
    (idx.namesOf bs b).1 = (idx.namesOf bs c).1 ↔
      idx.versionOf b = idx.versionOf c ∧ idx.crcOf b = idx.crcOf c := by
  have hmany : idx.versionOf b = idx.versionOf c →
      1 < bs.countP fun x => idx.versionOf x = idx.versionOf c := by
    intro hv
    have hsub : [b, c].Subperm bs :=
      List.subperm_of_subset (by simpa using hbc) (by simp [hb, hc])
    have hle := hsub.countP_le (p := fun x => decide (idx.versionOf x = idx.versionOf c))
    simp [hv] at hle
    omega
  unfold namesOf
  dsimp only
  constructor
  · intro h
    split_ifs at h with h₁ h₂ h₂
    · have hs := congrArg (splitOnce '-') h
      rw [splitOnce_append (dash_not_mem_decimal _), splitOnce_append (dash_not_mem_decimal _),
        Option.some.injEq, Prod.mk.injEq] at hs
      exact ⟨UInt32.toNat_inj.mp (decimal_injective hs.1), UInt32.toNat_inj.mp (hex8_injective hs.2)⟩
    · have hs := congrArg (splitOnce '-') h
      rw [splitOnce_append (dash_not_mem_decimal _), splitOnce_eq_none (dash_not_mem_decimal _)]
        at hs
      cases hs
    · have hs := congrArg (splitOnce '-') h
      rw [splitOnce_append (dash_not_mem_decimal _), splitOnce_eq_none (dash_not_mem_decimal _)]
        at hs
      cases hs
    · have hv := UInt32.toNat_inj.mp (decimal_injective h)
      exact absurd (hmany hv) h₂
  · rintro ⟨hv, hcrc⟩
    rw [hv, hcrc]

theorem padded_ascii {width n : ℕ} {c : Char} (hc : c ∈ padZero width (decimal n)) :
    c.toNat < 0x80 :=
  (digitlike_of_mem_padZero digitlike_decimal hc).1

theorem formatStamp_ascii (secs : ℕ) : ∀ c ∈ formatStamp secs, c.toNat < 0x80 := by
  intro c hc
  unfold formatStamp at hc
  rcases civilFromDays (min (secs / 86400) (2 ^ 63 - 1)) with ⟨y, m, d⟩
  simp only [List.mem_append, List.mem_cons] at hc
  rcases hc with (((((hc | rfl | hc) | rfl | hc) | rfl | hc) | rfl | hc) | rfl | hc)
  · exact padded_ascii hc
  · decide
  · exact padded_ascii hc
  · decide
  · exact padded_ascii hc
  · decide
  · exact padded_ascii hc
  · decide
  · exact padded_ascii hc
  · decide
  · exact padded_ascii hc

theorem name_ascii (bs : List ℕ) (b : ℕ) :
    ∀ c ∈ (idx.namesOf bs b).1, c.toNat < 0x80 ∧ c ≠ '_' := by
  intro c hc
  unfold namesOf at hc
  dsimp only at hc
  split_ifs at hc
  · rcases List.mem_append.mp hc with hc | hc
    · exact ⟨(digitlike_decimal c hc).1, (digitlike_decimal c hc).2.2⟩
    · rcases List.mem_cons.mp hc with rfl | hc
      · decide
      · have hd := digitlike_of_mem_padZero digitlike_hexLower hc
        exact ⟨hd.1, hd.2.2⟩
  · exact ⟨(digitlike_decimal c hc).1, (digitlike_decimal c hc).2.2⟩

theorem link_ascii (bs : List ℕ) (b : ℕ) : ∀ c ∈ (idx.namesOf bs b).2, c.toNat < 0x80 := by
  intro c hc
  rcases List.mem_append.mp hc with hc | hc
  · unfold stampOf at hc
    split at hc
    · exact formatStamp_ascii _ c hc
    · have hunknown : "unknown".toList.all (fun c => c.toNat < 0x80) = true := by decide
      exact of_decide_eq_true (List.all_eq_true.mp hunknown c hc)
  · rcases List.mem_cons.mp hc with rfl | hc
    · decide
    · rcases List.mem_cons.mp hc with rfl | hc
      · decide
      · exact (name_ascii bs b c hc).1

theorem link_eq_iff {bs : List ℕ} {b c : ℕ} :
    (idx.namesOf bs b).2 = (idx.namesOf bs c).2 ↔
      (idx.namesOf bs b).1 = (idx.namesOf bs c).1 ∧ idx.stampOf b = idx.stampOf c := by
  have hrev (x : ℕ) : splitOnce '_' (idx.namesOf bs x).2.reverse =
      some ((idx.namesOf bs x).1.reverse ++ ['v'], (idx.stampOf x).reverse) := by
    have hlink : (idx.namesOf bs x).2.reverse =
        ((idx.namesOf bs x).1.reverse ++ ['v']) ++ '_' :: (idx.stampOf x).reverse := by
      simp [namesOf]
    rw [hlink, splitOnce_append]
    intro hmem
    rcases List.mem_append.mp hmem with hmem | hmem
    · exact (name_ascii bs x _ (List.mem_reverse.mp hmem)).2 rfl
    · simp at hmem
  constructor
  · intro h
    have hs := hrev b
    rw [h, hrev c, Option.some.injEq, Prod.mk.injEq] at hs
    have hname := List.append_cancel_right hs.1
    exact ⟨(List.reverse_injective hname).symm, (List.reverse_injective hs.2).symm⟩
  · intro h
    change idx.stampOf b ++ '_' :: 'v' :: (idx.namesOf bs b).1 = _
    rw [h.1, h.2]
    rfl

theorem link_injective {bs : List ℕ} {b c : ℕ}
    (h : (idx.namesOf bs b).2 = (idx.namesOf bs c).2) :
    (idx.namesOf bs b).1 = (idx.namesOf bs c).1 :=
  (link_eq_iff.mp h).1

theorem name_head (bs : List ℕ) (b : ℕ) :
    ∃ c cs, (idx.namesOf bs b).1 = c :: cs ∧ c ≠ 'l' ∧ c ≠ 'b' := by
  obtain ⟨c, cs, hc⟩ : ∃ c cs, Nat.toDigits 10 (idx.versionOf b).toNat = c :: cs :=
    List.exists_cons_of_ne_nil Nat.toDigits_ne_nil
  have hmem : c ∈ Nat.toDigits 10 (idx.versionOf b).toNat := by
    rw [hc]
    exact List.mem_cons_self
  obtain ⟨k, hk, rfl⟩ := digit_of_mem_toDigits (by norm_num) hmem
  refine ⟨k.digitChar, ?_⟩
  have hne : k.digitChar ≠ 'l' ∧ k.digitChar ≠ 'b' := by
    clear hc hmem
    interval_cases k <;> decide
  unfold namesOf
  dsimp only
  split_ifs
  · exact ⟨_, by rw [decimal, hc]; rfl, hne⟩
  · exact ⟨_, hc, hne⟩

end Names

section Lookups
variable {idx : Index} {dep dep₀ : Depot}

theorem names_eq (h : dep = idx.finishDepot dep₀) :
    dep.names = dep.blobs.map (idx.namesOf dep.blobs) := by
  subst h
  rfl

theorem versions_eq (h : dep = idx.finishDepot dep₀) :
    dep.versions = dep.blobs.map fun b => ((idx.namesOf dep.blobs b).1, b) := by
  rw [Depot.versions, names_eq h, List.map_map, zip_map_self]
  rfl

theorem byName_eq (h : dep = idx.finishDepot dep₀) : dep.byName = dep.versions.reverse := by
  subst h
  rfl

theorem byDateLink_eq (h : dep = idx.finishDepot dep₀) :
    dep.byDateLink = (dep.blobs.map fun b => ((idx.namesOf dep.blobs b).2, b)).reverse := by
  have hdef : dep.byDateLink = ((dep.names.map Prod.snd).zip dep.blobs).reverse := by
    subst h
    rfl
  rw [hdef, names_eq h, List.map_map, zip_map_self]
  rfl

theorem mem_dateOrder (h : dep = idx.finishDepot dep₀) {b : ℕ} :
    b ∈ dep.dateOrder ↔ b ∈ dep.blobs := by
  subst h
  change b ∈ List.filterMap _ (List.insertionSort _ _) ↔ _
  rw [List.mem_filterMap]
  simp only [List.mem_insertionSort, List.mem_range]
  constructor
  · rintro ⟨i, -, hi⟩
    exact List.mem_of_getElem? hi
  · intro hb
    obtain ⟨i, hi, hbi⟩ := List.getElem_of_mem hb
    exact ⟨i, hi, by rw [← hbi]; exact List.getElem?_eq_getElem hi⟩

theorem nth_eq (h : dep = idx.finishDepot dep₀) (hn : dep.blobs.Nodup) {b : ℕ}
    (hb : b ∈ dep.blobs) : dep.nth b = some (idx.namesOf dep.blobs b) := by
  obtain ⟨i, hi, hbi⟩ := List.getElem_of_mem hb
  have hindex : dep.indexOf = dep.blobs.zipIdx.reverse := by
    subst h
    rfl
  have hlook : dep.indexOf.lookup b = some i := by
    rw [hindex]
    apply lookup_of_mem
    · rw [List.map_reverse, List.nodup_reverse, List.zipIdx_map_fst]
      exact hn
    · rw [List.mem_reverse, List.mem_zipIdx_iff_getElem?]
      rw [← hbi]
      exact List.getElem?_eq_getElem hi
  unfold Depot.nth
  rw [hlook, Option.bind_some, names_eq h, List.getElem?_map, List.getElem?_eq_getElem hi, hbi]
  rfl

theorem lookupName_name (h : dep = idx.finishDepot dep₀) {b : ℕ} (hb : b ∈ dep.blobs) :
    ∃ c ∈ dep.blobs, dep.lookupName (idx.namesOf dep.blobs b).1 = some c ∧
      (idx.namesOf dep.blobs c).1 = (idx.namesOf dep.blobs b).1 := by
  have hmem : ((idx.namesOf dep.blobs b).1, b) ∈ dep.byName := by
    rw [byName_eq h, versions_eq h, List.mem_reverse]
    exact List.mem_map.mpr ⟨b, hb, rfl⟩
  have hsome : (dep.byName.lookup (idx.namesOf dep.blobs b).1).isSome := by
    rw [List.lookup_isSome_iff]
    exact ⟨_, hmem, beq_self_eq_true _⟩
  obtain ⟨c, hc⟩ := Option.isSome_iff_exists.mp hsome
  have hfound := mem_of_lookup hc
  rw [byName_eq h, versions_eq h, List.mem_reverse] at hfound
  obtain ⟨c', hc', heq⟩ := List.mem_map.mp hfound
  obtain ⟨hname, rfl⟩ := Prod.mk.inj heq
  exact ⟨c', hc', hc, hname⟩

theorem maxByKey_mem (key : ℕ → ℕ ×ₗ ℕ ×ₗ ℕ) {bs : List ℕ} (h : bs ≠ []) :
    ∃ b ∈ bs, maxByKey key bs = some b := by
  obtain ⟨b, rest, rfl⟩ := List.exists_cons_of_ne_nil h
  refine ⟨_, ?_, rfl⟩
  refine List.foldlRecOn (motive := fun best => best ∈ b :: rest) rest _ List.mem_cons_self ?_
  intro best hbest c hc
  split_ifs
  · exact List.mem_cons_of_mem _ hc
  · exact hbest

theorem latest_mem {d : UInt32} (h : idx.depot d = some dep) (hne : dep.blobs ≠ []) :
    ∃ b ∈ dep.blobs, idx.latest d = some b := by
  have hlast := List.getLast?_eq_some_getLast hne
  have hshared : idx.blobsWithVersion d (idx.versionOf (dep.blobs.getLast hne)) =
      dep.blobs.filter fun b => idx.versionOf b = idx.versionOf (dep.blobs.getLast hne) := by
    unfold blobsWithVersion
    rw [h]
  have hmem : dep.blobs.getLast hne ∈
      idx.blobsWithVersion d (idx.versionOf (dep.blobs.getLast hne)) := by
    rw [hshared, List.mem_filter]
    exact ⟨List.getLast_mem hne, by simp⟩
  obtain ⟨b, hb, hmax⟩ := maxByKey_mem idx.dateKey (List.ne_nil_of_mem hmem)
  rw [hshared] at hb
  refine ⟨b, List.mem_of_mem_filter hb, ?_⟩
  unfold latest
  rw [h, Option.bind_eq_bind, Option.bind_some, hlast, Option.bind_eq_bind, Option.bind_some]
  exact hmax

end Lookups
end Steam2Fs.Index
