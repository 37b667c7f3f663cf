import Mathlib.Data.List.Forall2
import Steam2Fs.IndexNames

/-!
# The index does not depend on the order of the listings

Ids follow the listings, so two listings of the same files number them
differently. What a caller sees of an id is the entry it stands for. The
depots list the same entries in the same order, because sorting by version and
crc leaves no choice where no two blobs share both, and everything else is
computed from these lists. Of the dats with one key a complete one is found
before one in progress, whichever was listed first.
-/

namespace Steam2Fs

def DirEntry.blob (dates : Text.Str → Option Instant) (e : DirEntry) : Option BlobEntry :=
  (parseName e.name ".blob".toList).map fun r =>
    ⟨"blobs/".toList ++ e.name, e.name, r.1.depot, r.1.version, r.1.crc, e.size, dates e.name,
      if (Text.utf8 r.2).length = 64 then some r.2 else none⟩

def DirEntry.dat (e : DirEntry) : Option DatEntry :=
  let stripped := Text.stripSuffix ".!qB".toList e.name
  (parseName (stripped.getD e.name) ".dat".toList).map fun r =>
    ⟨"dats/".toList ++ e.name, r.1.depot, r.1.version, r.1.crc, e.size, stripped.isSome⟩

def BlobEntry.key (e : BlobEntry) : UInt32 × UInt32 × UInt32 := (e.depot, e.version, e.crc)

def DatEntry.key (e : DatEntry) : UInt32 × UInt32 × UInt32 := (e.depot, e.version, e.crc)

namespace Index
open Text List Relator

/-! ### Entries and keys of a loaded index -/

section Entries
variable {dates : Str → Option Instant}

def keyPairs (es : List BlobEntry) : List ((UInt32 × UInt32 × UInt32) × ℕ) :=
  (es.zipIdx.map fun p => (p.1.key, p.2)).reverse

theorem addBlob_eq (dates : Str → Option Instant) (idx : Index) (e : DirEntry)
    (h : idx.blobByKey = keyPairs idx.blobs) :
    (idx.addBlob dates e).blobs = idx.blobs ++ (e.blob dates).toList ∧
      (idx.addBlob dates e).blobByKey = keyPairs (idx.addBlob dates e).blobs := by
  unfold Index.addBlob DirEntry.blob
  cases parseName e.name ".blob".toList with
  | none => exact ⟨(List.append_nil _).symm, h⟩
  | some r =>
    refine ⟨rfl, ?_⟩
    dsimp only
    rw [h, keyPairs, keyPairs, List.zipIdx_append, List.map_append, List.reverse_append]
    simp [ParsedName.key, BlobEntry.key]

theorem addDat_eq (idx : Index) (e : DirEntry) :
    (idx.addDat e).dats = idx.dats ++ e.dat.toList ∧
      (idx.addDat e).datByKey = match e.dat with
        | none => idx.datByKey
        | some x => (x.key, ((idx.datByKey.lookup x.key).filter fun i =>
            ((idx.dats[i]?).map (!·.incomplete)).getD false).getD idx.dats.length) ::
              idx.datByKey := by
  unfold Index.addDat DirEntry.dat
  cases stripSuffix ".!qB".toList e.name with
  | none =>
    dsimp only [Option.getD, Option.isSome]
    cases parseName e.name ".dat".toList with
    | none => exact ⟨(List.append_nil _).symm, rfl⟩
    | some r => exact ⟨rfl, rfl⟩
  | some name =>
    dsimp only [Option.getD, Option.isSome]
    cases parseName name ".dat".toList with
    | none => exact ⟨(List.append_nil _).symm, rfl⟩
    | some r => exact ⟨rfl, rfl⟩

/-- A dat with the key, in progress only if all dats with the key are. -/
def Preferred (dats : List DatEntry) (k : UInt32 × UInt32 × UInt32) (e : DatEntry) : Prop :=
  e ∈ dats ∧ e.key = k ∧
    (e.incomplete = true → ∀ x ∈ dats, x.key = k → x.incomplete = true)

/-- The map of dat keys finds a preferred dat wherever there is one. -/
structure DatsFound (idx : Index) : Prop where
  missing : ∀ k, idx.datByKey.lookup k = none → ∀ e ∈ idx.dats, e.key ≠ k
  found : ∀ k i, idx.datByKey.lookup k = some i →
    ∃ e, idx.dats[i]? = some e ∧ Preferred idx.dats k e

theorem Preferred.append {dats : List DatEntry} {k : UInt32 × UInt32 × UInt32} {e x : DatEntry}
    (h : Preferred dats k e) (hx : x.key = k → e.incomplete = false) :
    Preferred (dats ++ [x]) k e := by
  refine ⟨List.mem_append_left _ h.1, h.2.1, fun he y hy hk => ?_⟩
  rcases List.mem_append.mp hy with hy | hy
  · exact h.2.2 he y hy hk
  · rw [List.mem_singleton.mp hy] at hk
    rw [hx hk] at he
    cases he

theorem Preferred.added {dats : List DatEntry} {x : DatEntry}
    (h : ∀ y ∈ dats, y.key = x.key → y.incomplete = true) :
    Preferred (dats ++ [x]) x.key x := by
  refine ⟨by simp, rfl, fun he y hy hk => ?_⟩
  rcases List.mem_append.mp hy with hy | hy
  · exact h y hy hk
  · rw [List.mem_singleton.mp hy]
    exact he

theorem getElem?_concat_of_some {dats : List DatEntry} {i : ℕ} {x y : DatEntry}
    (hy : dats[i]? = some y) : (dats ++ [x])[i]? = some y :=
  (List.getElem?_append_left (List.getElem?_eq_some_iff.mp hy).1).trans hy

theorem DatsFound.pick {idx : Index} (h : idx.DatsFound) (x : DatEntry) {i : ℕ}
    (hi : ((idx.datByKey.lookup x.key).filter fun i =>
      ((idx.dats[i]?).map (!·.incomplete)).getD false).getD idx.dats.length = i) :
    ∃ e, (idx.dats ++ [x])[i]? = some e ∧ Preferred (idx.dats ++ [x]) x.key e := by
  cases hprev : idx.datByKey.lookup x.key with
  | none =>
    rw [hprev] at hi
    cases hi
    refine ⟨x, List.getElem?_concat_length, .added fun y hy hkey => ?_⟩
    exact absurd hkey (h.missing _ hprev y hy)
  | some j =>
    obtain ⟨y, hy, hpref⟩ := h.found _ j hprev
    rw [hprev] at hi
    cases hinc : y.incomplete with
    | true =>
      simp only [Option.filter, hy, Option.map_some, hinc] at hi
      cases hi
      exact ⟨x, List.getElem?_concat_length, .added (hpref.2.2 hinc)⟩
    | false =>
      simp only [Option.filter, hy, Option.map_some, hinc] at hi
      cases hi
      exact ⟨y, getElem?_concat_of_some hy, hpref.append fun _ => hinc⟩

theorem DatsFound.addDat {idx : Index} (h : idx.DatsFound) (e : DirEntry) :
    (idx.addDat e).DatsFound := by
  obtain ⟨hdats, hkeys⟩ := idx.addDat_eq e
  cases hx : e.dat with
  | none =>
    rw [hx] at hdats hkeys
    rw [Option.toList_none, List.append_nil] at hdats
    exact ⟨by rw [hdats, hkeys]; exact h.missing, by rw [hdats, hkeys]; exact h.found⟩
  | some x =>
    rw [hx] at hdats hkeys
    dsimp only at hkeys
    rw [Option.toList_some] at hdats
    constructor
    · intro k hk y hy
      rw [hkeys, List.lookup_cons] at hk
      rw [hdats] at hy
      split at hk
      · cases hk
      · next hne =>
        rcases List.mem_append.mp hy with hy | hy
        · exact h.missing k hk y hy
        · rw [List.mem_singleton.mp hy]
          exact fun heq => by simp [heq] at hne
    · intro k i hk
      rw [hkeys, List.lookup_cons] at hk
      rw [hdats]
      by_cases heq : k = x.key
      · subst heq
        rw [beq_self_eq_true] at hk
        exact h.pick x (Option.some.inj hk)
      · rw [beq_false_of_ne heq] at hk
        obtain ⟨y, hy, hpref⟩ := h.found k i hk
        have hother : x.key = k → y.incomplete = false := fun hkey => absurd hkey.symm heq
        exact ⟨y, getElem?_concat_of_some hy, hpref.append hother⟩

theorem addBlob_dats (idx : Index) (e : DirEntry) :
    (idx.addBlob dates e).dats = idx.dats ∧ (idx.addBlob dates e).datByKey = idx.datByKey := by
  unfold Index.addBlob
  split
  · exact ⟨rfl, rfl⟩
  · exact ⟨rfl, rfl⟩

theorem addDat_blobByKey (idx : Index) (e : DirEntry) :
    (idx.addDat e).blobByKey = idx.blobByKey := by
  unfold Index.addDat
  dsimp only
  split
  · rfl
  · rfl

theorem foldl_addBlob (dates : Str → Option Instant) (es : List DirEntry) {idx : Index}
    (h : idx.blobByKey = keyPairs idx.blobs) :
    (es.foldl (addBlob dates) idx).blobs = idx.blobs ++ es.filterMap (DirEntry.blob dates) ∧
      (es.foldl (addBlob dates) idx).blobByKey =
        keyPairs (es.foldl (addBlob dates) idx).blobs := by
  induction es generalizing idx with
  | nil => exact ⟨(List.append_nil _).symm, h⟩
  | cons e es ih =>
    obtain ⟨hblobs, hkeys⟩ := idx.addBlob_eq dates e h
    obtain ⟨hfold, hfold'⟩ := ih hkeys
    refine ⟨?_, hfold'⟩
    rw [List.foldl_cons, hfold, hblobs, List.append_assoc, List.filterMap_cons]
    cases e.blob dates with
    | none => rfl
    | some x => rfl

theorem foldl_addDat (es : List DirEntry) (idx : Index) :
    (es.foldl addDat idx).dats = idx.dats ++ es.filterMap DirEntry.dat := by
  induction es generalizing idx with
  | nil => exact (List.append_nil _).symm
  | cons e es ih =>
    rw [List.foldl_cons, ih, (idx.addDat_eq e).1, List.append_assoc, List.filterMap_cons]
    cases e.dat with
    | none => rfl
    | some x => rfl

theorem load_blobs (bs ds : List DirEntry) :
    (load dates bs ds).blobs = bs.filterMap (DirEntry.blob dates) ∧
      (load dates bs ds).blobByKey = keyPairs (load dates bs ds).blobs := by
  have hstart : empty.blobByKey = keyPairs empty.blobs := rfl
  obtain ⟨hblobs, hkeys⟩ := foldl_addBlob dates bs hstart
  have hdats : (load dates bs ds).blobs = (bs.foldl (addBlob dates) empty).blobs ∧
      (load dates bs ds).blobByKey = (bs.foldl (addBlob dates) empty).blobByKey := by
    refine List.foldlRecOn (motive := fun idx : Index =>
      idx.blobs = (bs.foldl (addBlob dates) empty).blobs ∧
        idx.blobByKey = (bs.foldl (addBlob dates) empty).blobByKey) ds addDat ⟨rfl, rfl⟩ ?_
    intro idx h e _
    rw [addDat_blobs, addDat_blobByKey]
    exact h
  rw [hdats.1, hdats.2]
  exact ⟨hblobs, hkeys⟩

theorem load_dats (bs ds : List DirEntry) :
    (load dates bs ds).dats = ds.filterMap DirEntry.dat ∧ (load dates bs ds).DatsFound := by
  have hblobs : (bs.foldl (addBlob dates) empty).dats = [] ∧
      (bs.foldl (addBlob dates) empty).datByKey = [] := by
    refine List.foldlRecOn (motive := fun idx : Index => idx.dats = [] ∧ idx.datByKey = []) bs _
      ⟨rfl, rfl⟩ ?_
    intro idx h e _
    rw [(idx.addBlob_dats e).1, (idx.addBlob_dats e).2]
    exact h
  constructor
  · have h := foldl_addDat ds (bs.foldl (addBlob dates) empty)
    rw [hblobs.1] at h
    exact h
  · have hstart : (bs.foldl (addBlob dates) empty).DatsFound := by
      refine ⟨fun k _ e he => ?_, fun k i hk => ?_⟩
      · rw [hblobs.1] at he
        cases he
      · rw [hblobs.2] at hk
        cases hk
    have h : (ds.foldl addDat (bs.foldl (addBlob dates) empty)).DatsFound :=
      List.foldlRecOn ds _ hstart fun idx h e _ => h.addDat e
    exact ⟨h.missing, h.found⟩

theorem findBlob_iff {idx : Index} (hkeys : idx.blobByKey = keyPairs idx.blobs)
    (hn : (idx.blobs.map BlobEntry.key).Nodup) {d v c : UInt32} {b : ℕ} :
    idx.findBlob d v c = some b ↔ ∃ e, idx.blobs[b]? = some e ∧ e.key = (d, v, c) := by
  have hmem {k : UInt32 × UInt32 × UInt32} :
      (k, b) ∈ idx.blobByKey ↔ ∃ e, idx.blobs[b]? = some e ∧ e.key = k := by
    rw [hkeys, keyPairs, List.mem_reverse, List.mem_map]
    constructor
    · intro h
      obtain ⟨p, hp, heq⟩ := h
      obtain ⟨hk, rfl⟩ := Prod.mk.inj heq
      exact ⟨p.1, List.mem_zipIdx_iff_getElem?.mp hp, hk⟩
    · intro h
      obtain ⟨e, he, hk⟩ := h
      exact ⟨(e, b), List.mem_zipIdx_iff_getElem?.mpr he, by rw [hk]⟩
  constructor
  · intro h
    exact hmem.mp (mem_of_lookup h)
  · intro h
    apply lookup_of_mem _ (hmem.mpr h)
    rw [hkeys, keyPairs, List.map_reverse, List.nodup_reverse, List.map_map]
    have hfst : (Prod.fst ∘ fun p : BlobEntry × ℕ => (p.1.key, p.2)) = BlobEntry.key ∘ Prod.fst :=
      rfl
    rw [hfst, ← List.map_map, List.zipIdx_map_fst]
    exact hn

end Entries

/-! ### Lists related element by element -/

section Related
variable {α β : Type} {R : α → β → Prop}

theorem map_eq_of_forall₂ {γ : Type} {f : α → γ} {g : β → γ} {l : List α} {l' : List β}
    (h : Forall₂ R l l') (hfg : ∀ a b, R a b → f a = g b) : l.map f = l'.map g := by
  rw [← forall₂_eq_eq_eq, forall₂_map_left_iff, forall₂_map_right_iff]
  exact h.imp hfg

theorem forall₂_mem {l : List α} {l' : List β} (h : Forall₂ R l l') :
    Forall₂ (fun a b => R a b ∧ a ∈ l ∧ b ∈ l') l l' := by
  rw [forall₂_iff_zip]
  refine ⟨h.length_eq, fun hab => ?_⟩
  have hmem := List.of_mem_zip hab
  exact ⟨forall₂_zip h hab, hmem.1, hmem.2⟩

theorem getElem?_rel {l : List α} {l' : List β} (h : Forall₂ R l l') (n : ℕ) :
    Option.Rel R l[n]? l'[n]? := by
  induction h generalizing n with
  | nil => exact .none
  | cons hab _ ih =>
    cases n with
    | zero => exact .some hab
    | succ n => exact ih n

theorem filterMap_get_rel {l : List α} {l' : List β} (h : Forall₂ R l l') (is : List ℕ) :
    Forall₂ R (is.filterMap (l[·]?)) (is.filterMap (l'[·]?)) := by
  have hget : ((· = ·) ⇒ Option.Rel R) (fun n : ℕ => l[n]?) (fun n : ℕ => l'[n]?) := by
    intro n _ hn
    subst hn
    exact getElem?_rel h n
  refine rel_filterMap hget ?_
  rw [forall₂_eq_eq_eq]

theorem lookup_rel {κ : Type} [BEq κ] {l : List (κ × α)} {l' : List (κ × β)}
    (h : Forall₂ (fun p q => p.1 = q.1 ∧ R p.2 q.2) l l') (k : κ) :
    Option.Rel R (l.lookup k) (l'.lookup k) := by
  induction h with
  | nil => exact .none
  | @cons p q _ _ hpq _ ih =>
    rw [List.lookup_cons, List.lookup_cons, ← hpq.1]
    split
    · exact .some hpq.2
    · exact ih

theorem getLast?_rel {l : List α} {l' : List β} (h : Forall₂ R l l') :
    Option.Rel R l.getLast? l'.getLast? := by
  rw [List.getLast?_eq_getElem?, List.getLast?_eq_getElem?, h.length_eq]
  exact getElem?_rel h _

theorem option_map_eq {γ : Type} {f : α → γ} {g : β → γ} {o : Option α} {o' : Option β}
    (h : Option.Rel R o o') (hfg : ∀ a b, R a b → f a = g b) : o.map f = o'.map g := by
  cases h with
  | none => rfl
  | some hab => exact congrArg some (hfg _ _ hab)

theorem option_bind_rel {γ δ : Type} {S : γ → δ → Prop} {f : α → Option γ} {g : β → Option δ}
    {o : Option α} {o' : Option β} (h : Option.Rel R o o')
    (hfg : ∀ a b, R a b → Option.Rel S (f a) (g b)) : Option.Rel S (o.bind f) (o'.bind g) := by
  cases h with
  | none => exact .none
  | some hab => exact hfg _ _ hab

end Related

/-! ### Ids of one entry in two indexes -/

section Same
variable {i j : Index}

def SameEntry (i j : Index) (a b : ℕ) : Prop := i.blobs[a]? = j.blobs[b]?

theorem bind_eq_of_sameEntry {o o' : Option ℕ} (h : Option.Rel (SameEntry i j) o o') :
    o.bind (i.blobs[·]?) = o'.bind (j.blobs[·]?) := by
  cases h with
  | none => rfl
  | some hab => exact hab

theorem versionOf_same {a b : ℕ} (h : SameEntry i j a b) : i.versionOf a = j.versionOf b := by
  rw [versionOf, versionOf, h]

theorem crcOf_same {a b : ℕ} (h : SameEntry i j a b) : i.crcOf a = j.crcOf b := by
  rw [crcOf, crcOf, h]

theorem stampOf_same {a b : ℕ} (h : SameEntry i j a b) : i.stampOf a = j.stampOf b := by
  rw [stampOf, stampOf, h]

theorem dateKey_same {a b : ℕ} (h : SameEntry i j a b) : i.dateKey a = j.dateKey b := by
  rw [dateKey, dateKey, h]

theorem withVersion_rel {bs bs' : List ℕ} (h : Forall₂ (SameEntry i j) bs bs') (v : UInt32) :
    Forall₂ (SameEntry i j) (bs.filter fun c => i.versionOf c = v)
      (bs'.filter fun c => j.versionOf c = v) := by
  refine rel_filter (fun a b hab => ?_) h
  dsimp only
  rw [versionOf_same hab]

theorem namesOf_same {bs bs' : List ℕ} (h : Forall₂ (SameEntry i j) bs bs') {a b : ℕ}
    (hab : SameEntry i j a b) : i.namesOf bs a = j.namesOf bs' b := by
  have hcount : (bs.countP fun c => i.versionOf c = j.versionOf b) =
      bs'.countP fun c => j.versionOf c = j.versionOf b := by
    rw [List.countP_eq_length_filter, List.countP_eq_length_filter]
    exact (withVersion_rel h _).length_eq
  rw [namesOf, namesOf, versionOf_same hab, crcOf_same hab, stampOf_same hab, hcount]

theorem maxByKey_rel {bs bs' : List ℕ} (h : Forall₂ (SameEntry i j) bs bs') :
    Option.Rel (SameEntry i j) (maxByKey i.dateKey bs) (maxByKey j.dateKey bs') := by
  cases h with
  | nil => exact .none
  | cons hab hrest =>
    refine .some (rel_foldl (fun best best' hbest c c' hc => ?_) hab hrest)
    rw [dateKey_same hbest, dateKey_same hc]
    split_ifs
    · exact hc
    · exact hbest

end Same

/-! ### Depots -/

structure Loaded (idx : Index) : Prop extends Ordered idx, Catalogued idx, DatsFound idx where
  filed : idx.Filed
  finished : ∀ e ∈ idx.depots, ∃ dep₀, e.2 = idx.finishDepot dep₀
  blobKeys : idx.blobByKey = keyPairs idx.blobs

theorem load_loaded (dates : Str → Option Instant) (bs ds : List DirEntry) :
    (load dates bs ds).Loaded where
  toOrdered := load_ordered bs ds
  toCatalogued := load_catalogued bs ds
  toDatsFound := (load_dats bs ds).2
  filed := load_filed bs ds
  finished := fun _ he => load_finished bs ds he
  blobKeys := (load_blobs bs ds).2

section Depots
variable {idx : Index} {d : UInt32} {dep : Depot}

theorem Loaded.depot_iff (h : idx.Loaded) : idx.depot d = some dep ↔ (d, dep) ∈ idx.depots := by
  constructor
  · exact mem_of_lookup
  · refine lookup_of_mem (h.keys.imp fun hlt heq => ?_)
    rw [heq] at hlt
    exact absurd hlt (by simp)

theorem Loaded.mem_keys_iff (h : idx.Loaded) :
    d ∈ idx.depots.map Prod.fst ↔ ∃ e ∈ idx.blobs, e.depot = d := by
  rw [List.mem_map]
  constructor
  · intro hd
    obtain ⟨x, hx, rfl⟩ := hd
    obtain ⟨b, hb⟩ := List.exists_mem_of_ne_nil _ (h.nonempty x hx)
    obtain ⟨e, he, hdepot⟩ := h.filed x hx b hb
    exact ⟨e, List.mem_of_getElem? he, hdepot⟩
  · intro hd
    obtain ⟨e, he, rfl⟩ := hd
    obtain ⟨b, hb⟩ := List.mem_iff_getElem?.mp he
    obtain ⟨x, hx, hkey, -⟩ := h.holds b e hb
    exact ⟨x, hx, hkey⟩

def entriesOf (idx : Index) (dep : Depot) : List BlobEntry := dep.blobs.filterMap (idx.blobs[·]?)

theorem Loaded.mem_entriesOf (h : idx.Loaded) (hd : (d, dep) ∈ idx.depots) {e : BlobEntry} :
    e ∈ idx.entriesOf dep ↔ e ∈ idx.blobs ∧ e.depot = d := by
  rw [entriesOf, List.mem_filterMap]
  constructor
  · intro he
    obtain ⟨b, hb, hbe⟩ := he
    obtain ⟨e', he', hdepot⟩ := h.filed _ hd b hb
    rw [hbe] at he'
    cases he'
    exact ⟨List.mem_of_getElem? hbe, hdepot⟩
  · intro he
    obtain ⟨hmem, hdepot⟩ := he
    obtain ⟨b, hb⟩ := List.mem_iff_getElem?.mp hmem
    obtain ⟨x, hx, hkey, hbx⟩ := h.holds b e hb
    have hsame : idx.depot d = some x.2 := by
      rw [← hdepot, ← hkey]
      exact h.depot_iff.mpr hx
    rw [h.depot_iff.mpr hd] at hsame
    cases hsame
    exact ⟨b, hbx, hb⟩

theorem Loaded.entriesOf_nodup (h : idx.Loaded) (hn : idx.blobs.Nodup)
    (hd : (d, dep) ∈ idx.depots) : (idx.entriesOf dep).Nodup := by
  refine List.Nodup.filterMap (fun a b e ha hb => ?_) (h.nodup _ hd)
  obtain ⟨ha, hae⟩ := List.getElem?_eq_some_iff.mp ha
  obtain ⟨hb, hbe⟩ := List.getElem?_eq_some_iff.mp hb
  exact (hn.getElem_inj_iff).mp (hae.trans hbe.symm)

def rank (e : BlobEntry) : ℕ ×ₗ ℕ := toLex (e.version.toNat, e.crc.toNat)

theorem Loaded.entriesOf_sorted (h : idx.Loaded) (hd : (d, dep) ∈ idx.depots) :
    (idx.entriesOf dep).Pairwise fun e e' => rank e ≤ rank e' := by
  obtain ⟨dep₀, hfin⟩ := h.finished _ hd
  have hsorted : dep.blobs.Pairwise fun a b =>
      toLex ((idx.versionOf a).toNat, (idx.crcOf a).toNat) ≤
        toLex ((idx.versionOf b).toNat, (idx.crcOf b).toNat) := by
    have hblobs : dep.blobs = (idx.finishDepot dep₀).blobs := congrArg Depot.blobs hfin
    rw [hblobs]
    exact List.pairwise_insertionSort _ _
  rw [entriesOf, List.pairwise_filterMap]
  refine hsorted.imp fun {a b} hab e he e' he' => ?_
  rw [versionOf, crcOf, versionOf, crcOf, he, he'] at hab
  exact hab

theorem key_eq_of_rank {e e' : BlobEntry} (hd : e.depot = e'.depot) (h : rank e = rank e') :
    e.key = e'.key := by
  have hpair := Prod.mk.inj (toLex.injective h)
  rw [BlobEntry.key, BlobEntry.key, hd, UInt32.toNat_inj.mp hpair.1, UInt32.toNat_inj.mp hpair.2]

end Depots

/-! ### Two listings of the same files -/

section TwoLoads
variable {i j : Index}

/-- Depots of two indexes that list the same entries in the same order. -/
structure SameDepot (i j : Index) (dep dep' : Depot) : Prop where
  blobs : Forall₂ (SameEntry i j) dep.blobs dep'.blobs
  nodup : dep.blobs.Nodup
  nodup' : dep'.blobs.Nodup
  finished : ∃ dep₀, dep = i.finishDepot dep₀
  finished' : ∃ dep₀, dep' = j.finishDepot dep₀

theorem sameEntry_of_entriesOf {dep dep' : Depot} (hi : i.Loaded) (hj : j.Loaded) {d : UInt32}
    (hd : (d, dep) ∈ i.depots) (hd' : (d, dep') ∈ j.depots)
    (h : i.entriesOf dep = j.entriesOf dep') :
    Forall₂ (SameEntry i j) dep.blobs dep'.blobs := by
  -- every id of a depot has an entry, so the lists of entries are as long as those of ids
  have hall {idx : Index} {dep : Depot} (hl : idx.Loaded) (hd : (d, dep) ∈ idx.depots) :
      dep.blobs.map (idx.blobs[·]?) = (idx.entriesOf dep).map some := by
    rw [entriesOf, List.map_filterMap_some_eq_filter_map_isSome, List.filter_eq_self.mpr]
    intro o ho
    obtain ⟨b, hb, rfl⟩ := List.mem_map.mp ho
    obtain ⟨e, he, -⟩ := hl.filed _ hd b hb
    rw [he]
    rfl
  have hmap : dep.blobs.map (i.blobs[·]?) = dep'.blobs.map (j.blobs[·]?) := by
    rw [hall hi hd, hall hj hd', h]
  rw [← forall₂_eq_eq_eq, forall₂_map_left_iff, forall₂_map_right_iff] at hmap
  exact hmap

theorem depot_rel (hi : i.Loaded) (hj : j.Loaded) (hp : i.blobs.Perm j.blobs)
    (hn : (i.blobs.map BlobEntry.key).Nodup) (d : UInt32) :
    Option.Rel (SameDepot i j) (i.depot d) (j.depot d) := by
  have hkeys : d ∈ i.depots.map Prod.fst ↔ d ∈ j.depots.map Prod.fst := by
    rw [hi.mem_keys_iff, hj.mem_keys_iff]
    simp only [hp.mem_iff]
  have hmem {idx : Index} (hl : idx.Loaded) :
      d ∈ idx.depots.map Prod.fst ↔ ∃ dep, idx.depot d = some dep := by
    simp only [hl.depot_iff, List.mem_map, Prod.exists, exists_and_right, exists_eq_right]
  rw [hmem hi, hmem hj] at hkeys
  cases hdep : i.depot d with
  | none =>
    cases hdep' : j.depot d with
    | none => exact .none
    | some dep' =>
      obtain ⟨dep, hdep₂⟩ := hkeys.mpr ⟨dep', hdep'⟩
      rw [hdep] at hdep₂
      cases hdep₂
  | some dep =>
    obtain ⟨dep', hdep'⟩ := hkeys.mp ⟨dep, hdep⟩
    rw [hdep']
    have hd := hi.depot_iff.mp hdep
    have hd' := hj.depot_iff.mp hdep'
    refine .some ⟨?_, hi.nodup _ hd, hj.nodup _ hd', hi.finished _ hd, hj.finished _ hd'⟩
    apply sameEntry_of_entriesOf hi hj hd hd'
    have hblobs : i.blobs.Nodup := hn.of_map _
    apply List.Perm.eq_of_pairwise _ (hi.entriesOf_sorted hd) (hj.entriesOf_sorted hd')
    · rw [List.perm_ext_iff_of_nodup (hi.entriesOf_nodup hblobs hd)
        (hj.entriesOf_nodup (hp.nodup_iff.mp hblobs) hd')]
      intro e
      rw [hi.mem_entriesOf hd, hj.mem_entriesOf hd', hp.mem_iff]
    · intro e e' he he' hle hge
      obtain ⟨he, hde⟩ := (hi.mem_entriesOf hd).mp he
      obtain ⟨he', hde'⟩ := (hj.mem_entriesOf hd').mp he'
      have hkey := key_eq_of_rank (hde.trans hde'.symm) (le_antisymm hle hge)
      exact List.inj_on_of_nodup_map hn he (hp.mem_iff.mpr he') hkey

namespace SameDepot
variable {dep dep' : Depot}

theorem names (h : SameDepot i j dep dep') : dep.names = dep'.names := by
  obtain ⟨dep₀, hfin⟩ := h.finished
  obtain ⟨dep₀', hfin'⟩ := h.finished'
  rw [names_eq hfin, names_eq hfin']
  exact map_eq_of_forall₂ h.blobs fun a b hab => namesOf_same h.blobs hab

theorem versions (h : SameDepot i j dep dep') :
    Forall₂ (fun v v' => v.1 = v'.1 ∧ SameEntry i j v.2 v'.2) dep.versions dep'.versions := by
  obtain ⟨dep₀, hfin⟩ := h.finished
  obtain ⟨dep₀', hfin'⟩ := h.finished'
  rw [versions_eq hfin, versions_eq hfin', forall₂_map_left_iff, forall₂_map_right_iff]
  refine h.blobs.imp fun a b hab => ⟨?_, hab⟩
  rw [namesOf_same h.blobs hab]

theorem lookupName (h : SameDepot i j dep dep') (name : Str) :
    Option.Rel (SameEntry i j) (dep.lookupName name) (dep'.lookupName name) := by
  obtain ⟨dep₀, hfin⟩ := h.finished
  obtain ⟨dep₀', hfin'⟩ := h.finished'
  rw [Depot.lookupName, Depot.lookupName, byName_eq hfin, byName_eq hfin']
  exact lookup_rel (rel_reverse h.versions) name

theorem lookupDateLink (h : SameDepot i j dep dep') (name : Str) :
    Option.Rel (SameEntry i j) (dep.lookupDateLink name) (dep'.lookupDateLink name) := by
  obtain ⟨dep₀, hfin⟩ := h.finished
  obtain ⟨dep₀', hfin'⟩ := h.finished'
  rw [Depot.lookupDateLink, Depot.lookupDateLink, byDateLink_eq hfin, byDateLink_eq hfin']
  apply lookup_rel
  apply rel_reverse
  rw [forall₂_map_left_iff, forall₂_map_right_iff]
  refine h.blobs.imp fun a b hab => ⟨?_, hab⟩
  rw [namesOf_same h.blobs hab]

end SameDepot

def linkOrder (names : List (Str × Str)) (n : ℕ) : List ℕ :=
  let link (i : ℕ) : List ℕ := (((names[i]?).map Prod.snd).getD []).map Char.toNat
  (List.range n).insertionSort fun a b => link a ≤ link b

theorem dateOrder_eq {dep dep₀ : Depot} (h : dep = i.finishDepot dep₀) :
    dep.dateOrder = (linkOrder dep.names dep.blobs.length).filterMap (dep.blobs[·]?) := by
  subst h
  rfl

theorem SameDepot.dateLinks {dep dep' : Depot} (h : SameDepot i j dep dep') :
    Forall₂ (fun l l' => l.1 = l'.1 ∧ SameEntry i j l.2 l'.2) dep.dateLinks dep'.dateLinks := by
  obtain ⟨dep₀, hfin⟩ := h.finished
  obtain ⟨dep₀', hfin'⟩ := h.finished'
  rw [Depot.dateLinks, Depot.dateLinks, forall₂_map_left_iff, forall₂_map_right_iff,
    dateOrder_eq hfin, dateOrder_eq hfin', ← h.names, ← h.blobs.length_eq]
  refine (filterMap_get_rel (forall₂_mem h.blobs) _).imp fun a b hab => ⟨?_, hab.1⟩
  rw [Depot.dateLinkOf, Depot.dateLinkOf, nth_eq hfin h.nodup hab.2.1,
    nth_eq hfin' h.nodup' hab.2.2, namesOf_same h.blobs hab.1]

theorem blobsWithVersion_rel (hd : ∀ d, Option.Rel (SameDepot i j) (i.depot d) (j.depot d))
    (d v : UInt32) :
    Forall₂ (SameEntry i j) (i.blobsWithVersion d v) (j.blobsWithVersion d v) := by
  have h := hd d
  unfold blobsWithVersion
  generalize i.depot d = o at h ⊢
  generalize j.depot d = o' at h ⊢
  cases h with
  | none => exact .nil
  | some h => exact withVersion_rel h.blobs v

theorem latest_rel (hd : ∀ d, Option.Rel (SameDepot i j) (i.depot d) (j.depot d)) (d : UInt32) :
    Option.Rel (SameEntry i j) (i.latest d) (j.latest d) := by
  apply option_bind_rel (hd d)
  intro dep dep' h
  apply option_bind_rel (getLast?_rel h.blobs)
  intro a b hab
  rw [versionOf_same hab]
  exact maxByKey_rel (blobsWithVersion_rel hd d _)

theorem findBlob_eq_some {idx : Index} (hl : idx.Loaded)
    (hn : (idx.blobs.map BlobEntry.key).Nodup) {d v c : UInt32} {e : BlobEntry} :
    (idx.findBlob d v c).bind (idx.blobs[·]?) = some e ↔ e ∈ idx.blobs ∧ e.key = (d, v, c) := by
  rw [Option.bind_eq_some_iff]
  simp only [findBlob_iff hl.blobKeys hn]
  constructor
  · intro h
    obtain ⟨b, ⟨e', he', hkey⟩, he⟩ := h
    rw [he] at he'
    cases he'
    exact ⟨List.mem_of_getElem? he, hkey⟩
  · intro h
    obtain ⟨b, hb⟩ := List.mem_iff_getElem?.mp h.1
    exact ⟨b, ⟨e, hb, h.2⟩, hb⟩

theorem Preferred.unique {dats : List DatEntry}
    (hn : (dats.map fun e => (e.key, e.incomplete)).Nodup) {k : UInt32 × UInt32 × UInt32}
    {e e' : DatEntry} (h : Preferred dats k e) (h' : Preferred dats k e') : e = e' := by
  apply List.inj_on_of_nodup_map hn h.1 h'.1
  have hinc : e.incomplete = e'.incomplete := by
    cases he : e.incomplete with
    | true => exact (h.2.2 he e' h'.1 h'.2.1).symm
    | false =>
      cases he' : e'.incomplete with
      | false => rfl
      | true => rw [← he, h'.2.2 he' e h.1 h.2.1]
  rw [h.2.1, h'.2.1, hinc]

theorem findDat_eq_some {idx : Index} (hl : idx.Loaded)
    (hn : (idx.dats.map fun e => (e.key, e.incomplete)).Nodup) {d v c : UInt32} {e : DatEntry} :
    (idx.findDat d v c).bind (idx.dats[·]?) = some e ↔ Preferred idx.dats (d, v, c) e := by
  cases hfind : idx.findDat d v c with
  | none =>
    constructor
    · intro h
      cases h
    · intro h
      exact absurd h.2.1 (hl.missing _ hfind e h.1)
  | some x =>
    obtain ⟨e', he', hpref⟩ := hl.found _ x hfind
    rw [Option.bind_some, he', Option.some.injEq]
    constructor
    · intro h
      rw [← h]
      exact hpref
    · intro h
      exact hpref.unique hn h

end TwoLoads

def shown (idx : Index) (l : List (Str × ℕ)) : List (Str × Option BlobEntry) :=
  l.map fun p => (p.1, idx.blobs[p.2]?)

/-- Two indexes that differ at most in how they number their files. -/
structure Agree (i j : Index) : Prop where
  depots : i.depots.map Prod.fst = j.depots.map Prod.fst
  versions : ∀ d, (i.depot d).map (fun dep => i.shown dep.versions) =
    (j.depot d).map fun dep => j.shown dep.versions
  dateLinks : ∀ d, (i.depot d).map (fun dep => i.shown dep.dateLinks) =
    (j.depot d).map fun dep => j.shown dep.dateLinks
  lookupName : ∀ d name, ((i.depot d).bind (·.lookupName name)).bind (i.blobs[·]?) =
    ((j.depot d).bind (·.lookupName name)).bind (j.blobs[·]?)
  lookupDateLink : ∀ d name, ((i.depot d).bind (·.lookupDateLink name)).bind (i.blobs[·]?) =
    ((j.depot d).bind (·.lookupDateLink name)).bind (j.blobs[·]?)
  findBlob : ∀ d v c, (i.findBlob d v c).bind (i.blobs[·]?) =
    (j.findBlob d v c).bind (j.blobs[·]?)
  findDat : ∀ d v c, (i.findDat d v c).bind (i.dats[·]?) = (j.findDat d v c).bind (j.dats[·]?)
  blobsWithVersion : ∀ d v, (i.blobsWithVersion d v).map (i.blobs[·]?) =
    (j.blobsWithVersion d v).map (j.blobs[·]?)
  latest : ∀ d, (i.latest d).bind (i.blobs[·]?) = (j.latest d).bind (j.blobs[·]?)

theorem shown_eq {i j : Index} {l l' : List (Str × ℕ)}
    (h : Forall₂ (fun p q => p.1 = q.1 ∧ SameEntry i j p.2 q.2) l l') : i.shown l = j.shown l' :=
  map_eq_of_forall₂ h fun _ _ hpq => Prod.ext hpq.1 hpq.2

theorem Loaded.agree {i j : Index} (hi : i.Loaded) (hj : j.Loaded) (hb : i.blobs.Perm j.blobs)
    (hd : i.dats.Perm j.dats) (hblobs : (i.blobs.map BlobEntry.key).Nodup)
    (hdats : (i.dats.map fun e => (e.key, e.incomplete)).Nodup) : Agree i j := by
  have hblobs' : (j.blobs.map BlobEntry.key).Nodup := (hb.map _).nodup_iff.mp hblobs
  have hdats' : (j.dats.map fun e => (e.key, e.incomplete)).Nodup := (hd.map _).nodup_iff.mp hdats
  have hrel := depot_rel hi hj hb hblobs
  constructor
  · apply List.Perm.eq_of_pairwise _ hi.keys hj.keys
    · have hne {l : List UInt32} (hl : l.Pairwise (· < ·)) : l.Nodup :=
        hl.imp fun hlt heq => by simp [heq] at hlt
      rw [List.perm_ext_iff_of_nodup (hne hi.keys) (hne hj.keys)]
      intro d
      rw [hi.mem_keys_iff, hj.mem_keys_iff]
      simp only [hb.mem_iff]
    · intro a b _ _ hlt hgt
      exact absurd hgt (UInt32.lt_asymm hlt)
  · intro d
    exact option_map_eq (hrel d) fun dep dep' h => shown_eq h.versions
  · intro d
    exact option_map_eq (hrel d) fun dep dep' h => shown_eq h.dateLinks
  · intro d name
    apply bind_eq_of_sameEntry
    exact option_bind_rel (hrel d) fun dep dep' h => h.lookupName name
  · intro d name
    apply bind_eq_of_sameEntry
    exact option_bind_rel (hrel d) fun dep dep' h => h.lookupDateLink name
  · intro d v c
    ext e
    rw [findBlob_eq_some hi hblobs, findBlob_eq_some hj hblobs', hb.mem_iff]
  · intro d v c
    ext e
    rw [findDat_eq_some hi hdats, findDat_eq_some hj hdats']
    simp only [Preferred, hd.mem_iff]
  · intro d v
    exact map_eq_of_forall₂ (blobsWithVersion_rel hrel d v) fun _ _ hab => hab
  · intro d
    exact bind_eq_of_sameEntry (latest_rel hrel d)

/-- Listings of the same files give indexes that agree, where no two blobs
share depot, version and crc and no two dats share these and completeness. -/
theorem load_agree (dates : Str → Option Instant) {bs bs' ds ds' : List DirEntry}
    (hb : bs.Perm bs') (hd : ds.Perm ds')
    (hblobs : ((bs.filterMap (DirEntry.blob dates)).map BlobEntry.key).Nodup)
    (hdats : ((ds.filterMap DirEntry.dat).map fun e => (e.key, e.incomplete)).Nodup) :
    Agree (load dates bs ds) (load dates bs' ds') := by
  apply (load_loaded dates bs ds).agree (load_loaded dates bs' ds')
  · rw [(load_blobs bs ds).1, (load_blobs bs' ds').1]
    exact hb.filterMap _
  · rw [(load_dats bs ds).1, (load_dats bs' ds').1]
    exact hd.filterMap _
  · rw [(load_blobs bs ds).1]
    exact hblobs
  · rw [(load_dats bs ds).1]
    exact hdats

/-- Two forks of a version, and a dat next to an unfinished copy of it. -/
def forkNames : List DirEntry :=
  [⟨"5_1_000000aa_x.blob".toList, 3, false⟩, ⟨"5_1_000000ab_y.blob".toList, 4, false⟩]

def copyNames : List DirEntry :=
  [⟨"5_1_000000aa_x.dat".toList, 3, false⟩, ⟨"5_1_000000aa_x.dat.!qB".toList, 2, false⟩]

theorem load_agree_reversed :
    Agree (load (fun _ => none) forkNames copyNames)
      (load (fun _ => none) forkNames.reverse copyNames.reverse) :=
  load_agree _ (List.reverse_perm _).symm (List.reverse_perm _).symm (by decide +kernel)
    (by decide +kernel)

end Index
end Steam2Fs
