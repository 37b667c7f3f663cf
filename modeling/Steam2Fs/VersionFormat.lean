import Steam2Fs.BlobFormat
import Steam2Fs.VersionBlob

/-!
# The version blob's format

A version blob is a container of nine values under fixed keys, and of any other
entries. `VersionValues` are the values of one version without its own crc,
each accepted by the reader of its own kind; an `Arrangement` of them is a
buffer for every choice of key 10, with the entries in any order.

Keys are pairwise distinct, so a lookup does not see the order, and key 10 has
the same four bytes' place whatever it holds. What `parseBlob` compares key 10
with is therefore one number for each arrangement, and everything else it
returns is a number, a manifest or a table of the version alone.
-/

namespace Steam2Fs
open Layout Outcome

/-! Lookups in a container with pairwise distinct keys. -/

namespace Blob

theorem entriesAt_append (pos : ℕ) (as bs : List Pair) :
    entriesAt pos (as ++ bs) =
      entriesAt pos as ++ entriesAt (pos + (as.flatMap writeEntry).length) bs := by
  induction as generalizing pos with
  | nil => rfl
  | cons a as ih =>
    rw [List.cons_append, entriesAt, entriesAt, ih, List.flatMap_cons, List.length_append,
      ← Nat.add_assoc, List.cons_append]

theorem entriesAt_keys (pos : ℕ) (es : List Pair) :
    (entriesAt pos es).map Entry.key = es.map Prod.fst := by
  have hkeys : (entriesAt pos es).map Entry.key =
      ((entriesAt pos es).map Entry.pair).map Prod.fst := by
    rw [List.map_map]
    rfl
  rw [hkeys, entriesAt_pairs]

theorem fits_of_size {slack : UInt32} {es : List Pair} (hkeys : ∀ e ∈ es, e.1.length < 2 ^ 16)
    (hsize : (write slack es).length < 2 ^ 32) : ∀ e ∈ es, Fits e := by
  intro e he
  have hlen := (List.sublist_flatten_of_mem (List.mem_map_of_mem he (f := writeEntry))).length_le
  rw [← List.flatMap_def, writeEntry_length] at hlen
  rw [write_length] at hsize
  exact ⟨hkeys e he, by omega⟩

section Distinct
variable {b : Blob} {k : UInt32}

theorem find_of_mem (hn : (b.entries.map Entry.key).Nodup) {e : Entry} (he : e ∈ b.entries) :
    (b.entries.find? fun e' => e'.key = e.key) = some e := by
  obtain ⟨i, hi⟩ := List.getElem?_of_mem he
  apply find_first hi
  intro j hj e' hj' hkey
  have hlt : i < (b.entries.map Entry.key).length := by
    rw [List.length_map]
    exact (List.getElem?_eq_some_iff.mp hi).1
  apply List.nodup_iff_getElem?_ne_getElem?.mp hn j i hj hlt
  rw [List.getElem?_map, List.getElem?_map, hi, hj', Option.map_some, Option.map_some, hkey]

theorem require_of_mem (hn : (b.entries.map Entry.key).Nodup) {e : Entry} (he : e ∈ b.entries)
    (hk : e.key = leBytes32 k) : b.require k = .ok e.value := by
  rw [require, getU32Key, get, ← hk, find_of_mem hn he]
  rfl

theorem valueOffset_of_mem (hn : (b.entries.map Entry.key).Nodup) {e : Entry}
    (he : e ∈ b.entries) (hk : e.key = leBytes32 k) : b.valueOffset k = .ok e.valueOffset := by
  rw [valueOffset, ← hk, find_of_mem hn he]
  rfl

theorem require_entriesAt {pos : ℕ} {es : List Pair} (hn : (es.map Prod.fst).Nodup) {v : Bytes}
    (h : (leBytes32 k, v) ∈ es) : (⟨entriesAt pos es⟩ : Blob).require k = .ok v := by
  rw [← entriesAt_pairs pos es] at h
  obtain ⟨e, he, hpair⟩ := List.mem_map.mp h
  have hkey : e.key = leBytes32 k := congrArg Prod.fst hpair
  have hvalue : e.value = v := congrArg Prod.snd hpair
  rw [← entriesAt_keys pos] at hn
  rw [← hvalue]
  exact require_of_mem hn he hkey

theorem u32At_word (v : UInt32) : u32At (word v) 0 = .ok v :=
  u32At_complete (stands_zero.mpr (List.prefix_refl _)) (by norm_num)

theorem u32_of_require {v : UInt32} (h : b.require k = .ok (word v)) : b.u32 k = .ok v := by
  rw [u32, h, ok_bind, if_neg (by simp), u32At_word]

theorem u32OrU64_of_narrow {v : UInt32} (h : b.require k = .ok (word v)) :
    b.u32OrU64 k = .ok v.toUInt64 := by
  rw [u32OrU64, h, ok_bind, word_length]
  change UInt32.toUInt64 <$> u32At (word v) 0 = .ok v.toUInt64
  rw [u32At_word, map_ok]

theorem u32OrU64_of_wide {v : UInt64} (h : b.require k = .ok (leBytes 8 v.toNat)) :
    b.u32OrU64 k = .ok v := by
  have hread : u64At (leBytes 8 v.toNat) 0 = .ok v :=
    u64At_complete (stands_zero.mpr (List.prefix_refl _)) (by norm_num)
  rw [u32OrU64, h, ok_bind, leBytes_length]
  exact hread

end Distinct
end Blob

theorem decompress_wrapStream {codec : Codec} {data stream : Bytes}
    (h : codec.zlibToEnd stream = .ok data) (hdata : data.length ≤ isizeMax)
    (hstream : 20 + stream.length < 2 ^ 64) :
    decompress codec (wrapStream data.length stream) = .ok data := by
  have hlen : (wrapStream data.length stream).length = 20 + stream.length := by
    simp only [wrapStream, List.length_append, leBytes_length]
  have hpacked : (UInt64.ofNat (20 + stream.length)).toNat = 20 + stream.length :=
    UInt64.toNat_ofNat_of_lt' hstream
  have hunpacked : (UInt64.ofNat data.length).toNat = data.length :=
    UInt64.toNat_ofNat_of_lt' (hdata.trans_lt (by decide))
  have hstands : Stands (wrapStream data.length stream) 0 (wrapStream data.length stream) :=
    stands_zero.mpr (List.prefix_refl _)
  nth_rewrite 2 [wrapStream] at hstands
  simp only [stands_append, List.length_append, leBytes_length, Nat.zero_add, Nat.reduceAdd]
    at hstands
  obtain ⟨⟨⟨⟨h0, h2⟩, h10⟩, -⟩, h20⟩ := hstands
  have hread2 : u64At (wrapStream data.length stream) 2 = .ok (UInt64.ofNat (20 + stream.length)) :=
    u64At_complete (by rwa [hpacked]) (by norm_num)
  have hread10 : u64At (wrapStream data.length stream) 10 = .ok (UInt64.ofNat data.length) :=
    u64At_complete (by rwa [hunpacked]) (by norm_num)
  have hbody : getRange (wrapStream data.length stream) 20 (20 + stream.length) = some stream :=
    Blob.getRange_of_stands h20 (by rw [hlen])
  unfold decompress
  rw [u16At_complete h0 (by norm_num), ok_bind, if_neg (by simp), hread2, ok_bind, hread10,
    ok_bind]
  dsimp only
  rw [hpacked, hunpacked, hlen, Nat.min_self, hbody, ofOption, ok_bind,
    withCapacity_ok (by omega), ok_bind, h]
  dsimp only
  rw [if_neg (by simp)]

theorem ownCrc_split {head own tail : Bytes} (hown : own.length = 4)
    (hhead : head.length + 4 < 2 ^ 64) :
    ownCrc (head ++ own ++ tail) head.length =
      .ok (crc32 (head ++ List.replicate 4 0 ++ tail)) := by
  have hlen : (head ++ own ++ tail).length = head.length + 4 + tail.length := by
    rw [List.length_append, List.length_append, hown]
  have hbefore : ((head ++ own ++ tail).drop 0).take (head.length - 0) = head := by
    rw [List.drop_zero, Nat.sub_zero, List.append_assoc, List.take_left]
  have hafter : (head ++ own ++ tail).drop (head.length + 4) = tail := by
    rw [← hown, ← List.length_append, List.drop_left]
  unfold ownCrc
  rw [indexRange_ok (Nat.zero_le _) (by omega), ok_bind, hbefore, usizeAdd_ok hhead, ok_bind,
    indexRange_ok (by omega) le_rfl, ok_bind, hafter, List.take_of_length_le (by omega)]

/-- Key 13 is read as four bytes or as eight. -/
inductive DatSize where
  | narrow (size : UInt32)
  | wide (size : UInt64)

namespace DatSize

def encode : DatSize → Bytes
  | narrow size => word size
  | wide size => leBytes 8 size.toNat

def value : DatSize → UInt64
  | narrow size => size.toUInt64
  | wide size => size

theorem read {b : Blob} {k : UInt32} {s : DatSize} (h : b.require k = .ok s.encode) :
    b.u32OrU64 k = .ok s.value := by
  cases s with
  | narrow size => exact Blob.u32OrU64_of_narrow h
  | wide size => exact Blob.u32OrU64_of_wide h

end DatSize

def topKeys : List Bytes :=
  [Keys.OWN_CRC, Keys.FORMAT, Keys.MANIFEST_FINGERPRINT, Keys.MANIFEST, Keys.CHECKSUMS,
    Keys.DAT_CRC, Keys.PREV_VERSION, Keys.PREV_CRC, Keys.DAT_SIZE].map leBytes32

/-- The values of one version, without its own crc. -/
structure VersionValues (codec : Codec) where
  format : UInt32
  fingerprint : UInt32
  packed : Bytes
  table : Bytes
  datCrc : UInt32
  prevVersion : UInt32
  prevCrc : UInt32
  datSize : DatSize
  extra : List Blob.Pair
  wrapper : Bytes
  inner : Blob
  body : Bytes
  manifest : Manifest
  records : List FileRecord
  unpacks : decompress codec packed = .ok wrapper
  wraps : Blob.parse wrapper = .ok inner
  key_zero : inner.require 0 = .ok body
  manifest_accepted : Manifest.parse body = .ok manifest
  fingerprint_eq : manifest.fingerprint = fingerprint
  table_accepted : Checksums.parse table = .ok records
  distinct : (topKeys ++ extra.map Prod.fst).Nodup
  key_fits : ∀ e ∈ extra, e.1.length < 2 ^ 16

namespace VersionValues
variable {codec : Codec} (w : VersionValues codec)

def entries : List Blob.Pair :=
  [(leBytes32 Keys.FORMAT, word w.format),
    (leBytes32 Keys.MANIFEST_FINGERPRINT, word w.fingerprint),
    (leBytes32 Keys.MANIFEST, w.packed), (leBytes32 Keys.CHECKSUMS, w.table),
    (leBytes32 Keys.DAT_CRC, word w.datCrc), (leBytes32 Keys.PREV_VERSION, word w.prevVersion),
    (leBytes32 Keys.PREV_CRC, word w.prevCrc), (leBytes32 Keys.DAT_SIZE, w.datSize.encode)] ++
    w.extra

def parsed (ownCrc : UInt32) : ParsedBlob where
  info := ⟨w.format, ownCrc, w.datCrc, w.datSize.value,
    if w.prevVersion ≠ 0xffffffff then some (w.prevVersion, w.prevCrc) else none⟩
  manifest := w.manifest
  records := w.records

/-- The entries in some order around key 10, with what a container leaves free:
the slack word, and what follows the container. -/
structure Arrangement where
  slack : UInt32
  before : List Blob.Pair
  after : List Blob.Pair
  trailing : Bytes
  order : (before ++ after).Perm w.entries
  size : (Blob.write slack (before ++ (leBytes32 Keys.OWN_CRC, word 0) :: after)).length < 2 ^ 32

namespace Arrangement
variable {w} (a : w.Arrangement)

def pairs (v : UInt32) : List Blob.Pair :=
  a.before ++ (leBytes32 Keys.OWN_CRC, word v) :: a.after

def bytes (v : UInt32) : Bytes := Blob.write a.slack (a.pairs v) ++ a.trailing

def ownOffset : ℕ := 10 + (a.before.flatMap Blob.writeEntry).length + 10

theorem pairs_keys (v : UInt32) :
    ((a.pairs v).map Prod.fst).Perm (topKeys ++ w.extra.map Prod.fst) := by
  have hmiddle : (a.pairs v).Perm ((leBytes32 Keys.OWN_CRC, word v) :: w.entries) :=
    List.perm_middle.trans (a.order.cons _)
  exact hmiddle.map Prod.fst

theorem pairs_distinct (v : UInt32) : ((a.pairs v).map Prod.fst).Nodup :=
  (a.pairs_keys v).nodup_iff.mpr w.distinct

theorem mem_pairs {e : Blob.Pair} (h : e ∈ w.entries) (v : UInt32) : e ∈ a.pairs v := by
  have hmem := a.order.mem_iff.mpr h
  rw [List.mem_append] at hmem
  rw [pairs, List.mem_append, List.mem_cons]
  exact hmem.imp_right Or.inr

theorem write_pairs_length (v : UInt32) :
    (Blob.write a.slack (a.pairs v)).length = (Blob.write a.slack (a.pairs 0)).length := by
  simp only [Blob.write_length, pairs, List.flatMap_append, List.flatMap_cons, List.length_append,
    Blob.writeEntry_length, word_length]

theorem keys_fit (v : UInt32) : ∀ e ∈ a.pairs v, e.1.length < 2 ^ 16 := by
  have hkeys : ∀ key ∈ topKeys ++ w.extra.map Prod.fst, key.length < 2 ^ 16 := by
    intro key hkey
    rw [List.mem_append, topKeys, List.mem_map, List.mem_map] at hkey
    obtain ⟨k, -, rfl⟩ | ⟨e, he, rfl⟩ := hkey
    · rw [leBytes32, leBytes_length]
      norm_num
    · exact w.key_fits e he
  intro e he
  exact hkeys e.1 ((a.pairs_keys v).mem_iff.mp (List.mem_map_of_mem he))

def top (v : UInt32) : Blob := ⟨Blob.entriesAt 10 (a.pairs v)⟩

theorem parse_bytes (v : UInt32) : Blob.parse (a.bytes v) = .ok (a.top v) := by
  have hsize : (Blob.write a.slack (a.pairs v)).length < 2 ^ 32 := by
    rw [a.write_pairs_length]
    exact a.size
  have hfits := Blob.fits_of_size (a.keys_fit v) hsize
  exact Blob.parse_of_stands hfits hsize (stands_zero.mpr (List.prefix_append _ _))

theorem require_top {k : UInt32} {x : Bytes} (h : (leBytes32 k, x) ∈ w.entries) (v : UInt32) :
    (a.top v).require k = .ok x :=
  Blob.require_entriesAt (a.pairs_distinct v) (a.mem_pairs h v)

theorem ownEntry_mem (v : UInt32) :
    (⟨leBytes32 Keys.OWN_CRC, word v, a.ownOffset⟩ : Blob.Entry) ∈ (a.top v).entries := by
  change _ ∈ Blob.entriesAt 10 (a.before ++ (leBytes32 Keys.OWN_CRC, word v) :: a.after)
  rw [Blob.entriesAt_append, Blob.entriesAt, List.mem_append, List.mem_cons]
  exact Or.inr (Or.inl rfl)

theorem top_distinct (v : UInt32) : ((a.top v).entries.map Blob.Entry.key).Nodup := by
  change ((Blob.entriesAt 10 (a.pairs v)).map Blob.Entry.key).Nodup
  rw [Blob.entriesAt_keys]
  exact a.pairs_distinct v

theorem require_own (v : UInt32) : (a.top v).require Keys.OWN_CRC = .ok (word v) :=
  Blob.require_of_mem (a.top_distinct v) (a.ownEntry_mem v) rfl

theorem valueOffset_own (v : UInt32) :
    (a.top v).valueOffset Keys.OWN_CRC = .ok a.ownOffset :=
  Blob.valueOffset_of_mem (a.top_distinct v) (a.ownEntry_mem v) rfl

theorem fromBlob_top (v : UInt32) :
    VersionMeta.fromBlob (a.top v) = .ok (w.parsed v).info := by
  have hprevVersion : (a.top v).u32 Keys.PREV_VERSION = .ok w.prevVersion :=
    Blob.u32_of_require (a.require_top (by simp [entries]) v)
  have hprevCrc : (a.top v).u32 Keys.PREV_CRC = .ok w.prevCrc :=
    Blob.u32_of_require (a.require_top (by simp [entries]) v)
  have hformat : (a.top v).u32 Keys.FORMAT = .ok w.format :=
    Blob.u32_of_require (a.require_top (by simp [entries]) v)
  have hown : (a.top v).u32 Keys.OWN_CRC = .ok v := Blob.u32_of_require (a.require_own v)
  have hdatCrc : (a.top v).u32 Keys.DAT_CRC = .ok w.datCrc :=
    Blob.u32_of_require (a.require_top (by simp [entries]) v)
  have hdatSize : (a.top v).u32OrU64 Keys.DAT_SIZE = .ok w.datSize.value :=
    DatSize.read (a.require_top (by simp [entries]) v)
  unfold VersionMeta.fromBlob
  rw [hprevVersion, ok_bind, hprevCrc, ok_bind, hformat, ok_bind, hown, ok_bind, hdatCrc, ok_bind,
    hdatSize, ok_bind, parsed]

theorem parseManifest_top (v : UInt32) : parseManifest codec (a.top v) = .ok w.manifest := by
  have hpacked : (a.top v).require Keys.MANIFEST = .ok w.packed :=
    a.require_top (by simp [entries]) v
  unfold parseManifest
  rw [hpacked, ok_bind, w.unpacks, ok_bind, w.wraps, ok_bind, w.key_zero, ok_bind,
    w.manifest_accepted]

/-! Around the four bytes of key 10, an arrangement's buffers are one buffer. -/

def head : Bytes :=
  leBytes 2 MAGIC_PLAIN.toNat ++ leBytes 4 (Blob.write a.slack (a.pairs 0)).length ++
    word a.slack ++ a.before.flatMap Blob.writeEntry ++
    (leBytes 2 4 ++ leBytes 4 4 ++ leBytes32 Keys.OWN_CRC)

def tail : Bytes := a.after.flatMap Blob.writeEntry ++ a.trailing

def zeroed : Bytes := a.head ++ List.replicate 4 0 ++ a.tail

theorem head_length : a.head.length = a.ownOffset := by
  simp only [head, leBytes32, List.length_append, leBytes_length, word_length, ownOffset]

theorem bytes_eq (v : UInt32) : a.bytes v = a.head ++ word v ++ a.tail := by
  have htotal := a.write_pairs_length v
  rw [Blob.write_length] at htotal
  have hown : Blob.writeEntry (leBytes32 Keys.OWN_CRC, word v) =
      leBytes 2 4 ++ leBytes 4 4 ++ leBytes32 Keys.OWN_CRC ++ word v := by
    rw [Blob.writeEntry, word_length, leBytes32, leBytes_length]
  have hbody : (a.pairs v).flatMap Blob.writeEntry = a.before.flatMap Blob.writeEntry ++
      (leBytes 2 4 ++ leBytes 4 4 ++ leBytes32 Keys.OWN_CRC ++ word v ++
        a.after.flatMap Blob.writeEntry) := by
    rw [pairs, List.flatMap_append, List.flatMap_cons, hown]
  rw [bytes, Blob.write, htotal, hbody, head, tail]
  simp only [List.append_assoc]

theorem ownCrc_bytes (v : UInt32) :
    ownCrc (a.bytes v) a.ownOffset = .ok (crc32 a.zeroed) := by
  have hsize := a.size
  have hoffset : a.ownOffset + 4 < 2 ^ 64 := by
    have hlen := Blob.write_length a.slack (a.pairs 0)
    rw [pairs, List.flatMap_append, List.length_append, List.flatMap_cons, List.length_append,
      Blob.writeEntry_length] at hlen
    rw [ownOffset]
    omega
  rw [← a.head_length] at hoffset ⊢
  rw [a.bytes_eq]
  exact ownCrc_split (word_length v) hoffset

theorem parseBlob_bytes (v : UInt32) :
    parseBlob codec (a.bytes v) =
      if crc32 a.zeroed ≠ v then
        .err (.msg ("blob crc " ++ hexPad 8 (crc32 a.zeroed).toNat ++ " != key 10 " ++
          hexPad 8 v.toNat))
      else .ok (w.parsed v) := by
  have hfingerprint : (a.top v).u32 Keys.MANIFEST_FINGERPRINT = .ok w.fingerprint :=
    Blob.u32_of_require (a.require_top (by simp [entries]) v)
  have htable : (a.top v).require Keys.CHECKSUMS = .ok w.table :=
    a.require_top (by simp [entries]) v
  unfold parseBlob
  rw [a.parse_bytes, mapErr_ok, ok_bind, a.fromBlob_top, mapErr_ok, ok_bind, a.parseManifest_top,
    mapErr_ok, ok_bind, hfingerprint, mapErr_ok, ok_bind, if_neg (by simp [w.fingerprint_eq]),
    a.require_own, mapErr_ok, ok_bind, if_neg (by simp), a.valueOffset_own, mapErr_ok, ok_bind,
    a.ownCrc_bytes, ok_bind, htable, mapErr_ok, ok_bind, w.table_accepted, mapErr_ok, ok_bind]
  rfl

end Arrangement

/-- Of all values of key 10, `parseBlob` takes the crc32 of the buffer with the
four bytes of key 10 zeroed, and no other. It then returns the version's values
with that crc, whatever the order of the entries. -/
theorem parseBlob_eq_ok_iff (w : VersionValues codec) (a : w.Arrangement) :
    ∃ head tail, ∀ v : UInt32,
      a.bytes v = head ++ word v ++ tail ∧ (parseBlob codec (a.bytes v)).Returns ∧
        ∀ p, parseBlob codec (a.bytes v) = .ok p ↔
          v = crc32 (head ++ List.replicate 4 0 ++ tail) ∧ p = w.parsed v := by
  refine ⟨a.head, a.tail, fun v => ?_⟩
  have hparse := a.parseBlob_bytes v
  refine ⟨a.bytes_eq v, ?_⟩
  change _ ∧ ∀ p, _ ↔ v = crc32 a.zeroed ∧ p = w.parsed v
  by_cases hcrc : crc32 a.zeroed = v
  · rw [if_neg (not_not.mpr hcrc)] at hparse
    rw [hparse]
    refine ⟨returns_ok _, fun p => ⟨fun h => ⟨hcrc.symm, (ok.inj h).symm⟩, fun h => ?_⟩⟩
    rw [h.2]
  · rw [if_pos hcrc] at hparse
    rw [hparse]
    refine ⟨returns_err _, fun p => ⟨fun h => ?_, fun h => ?_⟩⟩
    · cases h
    · exact absurd h.1.symm hcrc

end VersionValues

def bareImage : Manifest.Image := Manifest.plainImage [⟨0, 0, NO_FILE, 0, NO_NODE, 0, 0⟩] [0]

def bareWrapper : Bytes := Blob.encode [(0, bareImage.encode)]

set_option maxRecDepth 20000 in
/-- A version without files, with an entry under a short key and one under none. -/
def bareValues : VersionValues (Codec.stored zeroKeyStream) where
  format := 4
  fingerprint := 0
  packed := wrapStream bareWrapper.length (zlibStored bareWrapper)
  table := Checksums.encode []
  datCrc := 5
  prevVersion := 0xffffffff
  prevCrc := 0
  datSize := .narrow 9
  extra := [([7], [1, 2]), ([], [])]
  wrapper := bareWrapper
  inner := ⟨[⟨leBytes32 0, bareImage.encode, 20⟩]⟩
  body := bareImage.encode
  manifest := ⟨4, 0, 0, 0, 0, [⟨0, 0, NO_FILE, 0, NO_NODE, 0, 0⟩], [0], [0], []⟩
  records := []
  unpacks := decompress_wrapStream (by decide +kernel) (by decide +kernel) (by decide +kernel)
  wraps := by decide +kernel
  key_zero := by decide +kernel
  manifest_accepted := by decide +kernel
  fingerprint_eq := rfl
  table_accepted := by decide +kernel
  distinct := by decide +kernel
  key_fits := by decide

/-- The entries from the last to the first, key 10 after the third. -/
def bareReversed : bareValues.Arrangement where
  slack := 1
  before := bareValues.entries.reverse.take 3
  after := bareValues.entries.reverse.drop 3
  trailing := [0xff]
  order := by
    rw [List.take_append_drop]
    exact List.reverse_perm _
  size := by decide +kernel

theorem bareReversed_parses :
    parseBlob (Codec.stored zeroKeyStream) (bareReversed.bytes (crc32 (bareReversed.bytes 0))) =
      .ok (bareValues.parsed (crc32 (bareReversed.bytes 0))) := by
  obtain ⟨head, tail, h⟩ := VersionValues.parseBlob_eq_ok_iff bareValues bareReversed
  have hzero : bareReversed.bytes 0 = head ++ List.replicate 4 0 ++ tail := (h 0).1
  exact ((h _).2.2 _).mpr ⟨congrArg crc32 hzero, rfl⟩

end Steam2Fs
