import Steam2Fs.VersionBlob

/-!
# The inventory of a dump

Everything here is read off file names. A hash map is the list of the pairs
put into it, newest first, so a lookup finds the last value stored under a
key; the ordered map of depots is the list of its entries in ascending order.
Blob and dat ids are positions in the two entry lists, as naturals where the
source casts `len()` to `u32`: by `load_ids_lt` the cast loses nothing up to
2^32 files. Names are texts; the instants of the dates file are given by name.
-/

namespace Steam2Fs
open Text

structure Instant where
  secs : ℕ
  nanos : ℕ
  deriving DecidableEq, Repr

structure BlobEntry where
  path : Str
  fileName : Str
  depot : UInt32
  version : UInt32
  crc : UInt32
  size : UInt64
  date : Option Instant
  sha256 : Option Str
  deriving DecidableEq, Repr

structure DatEntry where
  path : Str
  depot : UInt32
  version : UInt32
  crc : UInt32
  size : UInt64
  incomplete : Bool
  deriving DecidableEq, Repr

structure DirEntry where
  name : Str
  size : UInt64
  isDir : Bool
  deriving DecidableEq, Repr

structure Depot where
  blobs : List ℕ
  /-- Parallel to `blobs`: version directory name and `by-date/` link name. -/
  names : List (Str × Str)
  byName : List (Str × ℕ)
  byDateLink : List (Str × ℕ)
  dateOrder : List ℕ
  indexOf : List (ℕ × ℕ)
  deriving DecidableEq, Repr

namespace Depot

def versions (d : Depot) : List (Str × ℕ) := (d.names.map Prod.fst).zip d.blobs

def lookupName (d : Depot) (name : Str) : Option ℕ := d.byName.lookup name

def lookupDateLink (d : Depot) (name : Str) : Option ℕ := d.byDateLink.lookup name

def nth (d : Depot) (id : ℕ) : Option (Str × Str) := (d.indexOf.lookup id).bind fun i => d.names[i]?

def nameOf (d : Depot) (id : ℕ) : Option Str := (d.nth id).map Prod.fst

def dateLinkOf (d : Depot) (id : ℕ) : Option Str := (d.nth id).map Prod.snd

def dateLinks (d : Depot) : List (Str × ℕ) := d.dateOrder.map fun b => ((d.dateLinkOf b).getD [], b)

end Depot

structure Index where
  blobs : List BlobEntry
  dats : List DatEntry
  depots : List (UInt32 × Depot)
  blobByKey : List ((UInt32 × UInt32 × UInt32) × ℕ)
  datByKey : List ((UInt32 × UInt32 × UInt32) × ℕ)
  deriving DecidableEq, Repr

structure ParsedName where
  depot : UInt32
  version : UInt32
  crc : UInt32

def ParsedName.key (p : ParsedName) : UInt32 × UInt32 × UInt32 := (p.depot, p.version, p.crc)

def parseU32 (radix : ℕ) (s : Str) : Option UInt32 := (fromStrRadix radix (2 ^ 32) s).map UInt32.ofNat

theorem parseU32_decimal (n : UInt32) : parseU32 10 (decimal n.toNat) = some n := by
  unfold parseU32 decimal
  rw [fromStrRadix_toDigits (by decide) (by decide) n.toNat_lt]
  exact congrArg some UInt32.ofNat_toNat

theorem parseU32_hex8 (n : UInt32) : parseU32 16 (padZero 8 (hexLower n.toNat)) = some n := by
  unfold parseU32 hexLower
  rw [fromStrRadix_padZero (by decide) (by decide) 8 n.toNat_lt]
  exact congrArg some UInt32.ofNat_toNat

def parseName (name ext : Str) : Option (ParsedName × Str) := do
  let stem ← stripSuffix ext name
  let (depot, rest) ← splitOnce '_' stem
  let (version, rest) ← splitOnce '_' rest
  let (crc, sha) ← splitOnce '_' rest
  some (⟨← parseU32 10 depot, ← parseU32 10 version, ← parseU32 16 crc⟩, sha)

/-- Year, month and day of a day count from 1970-01-01. -/
def civilFromDays (z : ℤ) : ℤ × ℕ × ℕ :=
  let z := z + 719468
  let era := Int.tdiv (if 0 ≤ z then z else z - 146096) 146097
  let doe := z - era * 146097
  let yoe := Int.tdiv (doe - Int.tdiv doe 1460 + Int.tdiv doe 36524 - Int.tdiv doe 146096) 365
  let y := yoe + era * 400
  let doy := doe - (365 * yoe + Int.tdiv yoe 4 - Int.tdiv yoe 100)
  let mp := Int.tdiv (5 * doy + 2) 153
  let d := (doy - Int.tdiv (153 * mp + 2) 5 + 1).toNat
  let m := (if mp < 10 then mp + 3 else mp - 9).toNat
  (if m ≤ 2 then y + 1 else y, m, d)

/-- `YYYY-MM-DDTHH-MM-SS` of a count of seconds; its year is 1970 or later. -/
def formatStamp (secs : ℕ) : Str :=
  let days : ℤ := min (secs / 86400) (2 ^ 63 - 1)
  let rem := secs % 86400
  let (y, m, d) := civilFromDays days
  let two (n : ℕ) : Str := padZero 2 (decimal n)
  padZero 4 (decimal y.toNat) ++ '-' :: two m ++ '-' :: two d ++ 'T' :: two (rem / 3600) ++
    '-' :: two (rem / 60 % 60) ++ '-' :: two (rem % 60)

namespace Index

def empty : Index := ⟨[], [], [], [], []⟩

section Build
variable (dates : Str → Option Instant)

/-- `depots.entry(depot).or_default().blobs.push(id)`. -/
def pushBlob (depot : UInt32) (id : ℕ) : List (UInt32 × Depot) → List (UInt32 × Depot)
  | [] => [(depot, ⟨[id], [], [], [], [], []⟩)]
  | (e, d) :: rest =>
    if depot < e then (depot, ⟨[id], [], [], [], [], []⟩) :: (e, d) :: rest
    else if depot = e then (e, { d with blobs := d.blobs ++ [id] }) :: rest
    else (e, d) :: pushBlob depot id rest

def addBlob (idx : Index) (e : DirEntry) : Index :=
  match parseName e.name ".blob".toList with
  | none => idx
  | some (p, sha) =>
    let id := idx.blobs.length
    { idx with
      blobByKey := (p.key, id) :: idx.blobByKey
      blobs := idx.blobs ++ [⟨"blobs/".toList ++ e.name, e.name, p.depot, p.version, p.crc, e.size,
        dates e.name, if (utf8 sha).length = 64 then some sha else none⟩]
      depots := pushBlob p.depot id idx.depots }

def addDat (idx : Index) (e : DirEntry) : Index :=
  let (name, incomplete) := match stripSuffix ".!qB".toList e.name with
    | some n => (n, true)
    | none => (e.name, false)
  match parseName name ".dat".toList with
  | none => idx
  | some (p, _) =>
    let id := idx.dats.length
    let prev := idx.datByKey.lookup p.key
    -- Prefer a complete file over an in-progress one with the same identity.
    let keep := prev.filter fun i => ((idx.dats[i]?).map (!·.incomplete)).getD false
    { idx with
      datByKey := (p.key, keep.getD id) :: idx.datByKey
      dats := idx.dats ++ [⟨"dats/".toList ++ e.name, p.depot, p.version, p.crc, e.size,
        incomplete⟩] }

def versionOf (idx : Index) (id : ℕ) : UInt32 := ((idx.blobs[id]?).map BlobEntry.version).getD 0

def crcOf (idx : Index) (id : ℕ) : UInt32 := ((idx.blobs[id]?).map BlobEntry.crc).getD 0

def stampOf (idx : Index) (id : ℕ) : Str :=
  match (idx.blobs[id]?).bind BlobEntry.date with
  | some t => formatStamp t.secs
  | none => "unknown".toList

def namesOf (idx : Index) (blobs : List ℕ) (b : ℕ) : Str × Str :=
  let version := idx.versionOf b
  let name :=
    if 1 < blobs.countP fun c => idx.versionOf c = version then
      decimal version.toNat ++ '-' :: padZero 8 (hexLower (idx.crcOf b).toNat)
    else decimal version.toNat
  (name, idx.stampOf b ++ '_' :: 'v' :: name)

def finishDepot (idx : Index) (d : Depot) : Depot :=
  let blobs := d.blobs.insertionSort fun a b =>
    toLex ((idx.versionOf a).toNat, (idx.crcOf a).toNat) ≤
      toLex ((idx.versionOf b).toNat, (idx.crcOf b).toNat)
  let names := blobs.map (idx.namesOf blobs)
  let link (i : ℕ) : List ℕ := (((names[i]?).map Prod.snd).getD []).map Char.toNat
  let order := (List.range blobs.length).insertionSort fun a b => link a ≤ link b
  { blobs := blobs
    names := names
    indexOf := blobs.zipIdx.reverse
    byName := ((names.map Prod.fst).zip blobs).reverse
    byDateLink := ((names.map Prod.snd).zip blobs).reverse
    dateOrder := order.filterMap (blobs[·]?) }

def load (blobEntries datEntries : List DirEntry) : Index :=
  let idx := datEntries.foldl addDat (blobEntries.foldl (addBlob dates) empty)
  { idx with depots := idx.depots.map fun e => (e.1, idx.finishDepot e.2) }

end Build

def depot (idx : Index) (d : UInt32) : Option Depot := idx.depots.lookup d

def findBlob (idx : Index) (depot version crc : UInt32) : Option ℕ :=
  idx.blobByKey.lookup (depot, version, crc)

def findDat (idx : Index) (depot version crc : UInt32) : Option ℕ :=
  idx.datByKey.lookup (depot, version, crc)

def blobsWithVersion (idx : Index) (d version : UInt32) : List ℕ :=
  match idx.depot d with
  | none => []
  | some dep => dep.blobs.filter fun b => idx.versionOf b = version

/-- Orders undated blobs before dated ones. -/
def dateKey (idx : Index) (id : ℕ) : ℕ ×ₗ ℕ ×ₗ ℕ :=
  match (idx.blobs[id]?).bind BlobEntry.date with
  | some t => toLex (1, toLex (t.secs, t.nanos))
  | none => toLex (0, toLex (0, 0))

/-- `max_by_key`: the last of the greatest elements. -/
def maxByKey (key : ℕ → ℕ ×ₗ ℕ ×ₗ ℕ) : List ℕ → Option ℕ
  | [] => none
  | b :: bs => some (bs.foldl (fun best c => if key best ≤ key c then c else best) b)

/-- Highest version, and among forks the most recently dated one. -/
def latest (idx : Index) (d : UInt32) : Option ℕ := do
  let dep ← idx.depot d
  let last ← dep.blobs.getLast?
  maxByKey idx.dateKey (idx.blobsWithVersion d (idx.versionOf last))

section Range
variable {dates : Str → Option Instant}

/-- Every id the maps and the depots of an index hold is a position of its list. -/
structure InRange (idx : Index) : Prop where
  blobByKey : ∀ e ∈ idx.blobByKey, e.2 < idx.blobs.length
  datByKey : ∀ e ∈ idx.datByKey, e.2 < idx.dats.length
  depots : ∀ e ∈ idx.depots, ∀ b ∈ e.2.blobs, b < idx.blobs.length

theorem mem_pushBlob {depot : UInt32} {id : ℕ} {ds : List (UInt32 × Depot)}
    {e : UInt32 × Depot} (h : e ∈ pushBlob depot id ds) {b : ℕ} (hb : b ∈ e.2.blobs) :
    (b = id ∧ e.1 = depot) ∨ ∃ e' ∈ ds, e'.1 = e.1 ∧ b ∈ e'.2.blobs := by
  induction ds with
  | nil =>
    simp only [pushBlob, List.mem_singleton] at h
    subst h
    exact Or.inl ⟨by simpa using hb, rfl⟩
  | cons x xs ih =>
    rw [pushBlob] at h
    split_ifs at h with hlt heq
    · rcases List.mem_cons.mp h with rfl | h
      · exact Or.inl ⟨by simpa using hb, rfl⟩
      · exact Or.inr ⟨e, h, rfl, hb⟩
    · rcases List.mem_cons.mp h with rfl | h
      · rcases List.mem_append.mp hb with hb | hb
        · exact Or.inr ⟨x, by simp, rfl, hb⟩
        · exact Or.inl ⟨by simpa using hb, heq.symm⟩
      · exact Or.inr ⟨e, by simp [h], rfl, hb⟩
    · rcases List.mem_cons.mp h with rfl | h
      · exact Or.inr ⟨_, by simp, rfl, hb⟩
      · rcases ih h with hid | ⟨e', he', hkey, hb'⟩
        · exact Or.inl hid
        · exact Or.inr ⟨e', by simp [he'], hkey, hb'⟩

theorem InRange.addBlob {idx : Index} (h : idx.InRange) (e : DirEntry) :
    (idx.addBlob dates e).InRange := by
  unfold Index.addBlob
  split
  · exact h
  · refine ⟨fun x hx => ?_, h.datByKey, fun x hx b hb => ?_⟩
    · rw [List.length_append, List.length_singleton]
      rcases List.mem_cons.mp hx with rfl | hx
      · exact Nat.lt_succ_self _
      · exact (h.blobByKey x hx).trans (Nat.lt_succ_self _)
    · rw [List.length_append, List.length_singleton]
      rcases mem_pushBlob hx hb with ⟨rfl, -⟩ | ⟨e', he', -, hb'⟩
      · exact Nat.lt_succ_self _
      · exact (h.depots e' he' b hb').trans (Nat.lt_succ_self _)

theorem InRange.addDat {idx : Index} (h : idx.InRange) (e : DirEntry) :
    (idx.addDat e).InRange := by
  unfold Index.addDat
  dsimp only
  split
  · exact h
  · next p sha hp =>
    refine ⟨h.blobByKey, fun x hx => ?_, h.depots⟩
    rw [List.length_append, List.length_singleton]
    rcases List.mem_cons.mp hx with rfl | hx
    · dsimp only
      cases hk : (idx.datByKey.lookup p.key).filter fun i =>
          ((idx.dats[i]?).map (!·.incomplete)).getD false with
      | none => exact Nat.lt_succ_self _
      | some i =>
        have hi := (Option.filter_eq_some_iff.mp hk).2
        have hlt : i < idx.dats.length := by
          by_contra hge
          simp [List.getElem?_eq_none (Nat.not_lt.mp hge)] at hi
        exact hlt.trans (Nat.lt_succ_self _)
    · exact (h.datByKey x hx).trans (Nat.lt_succ_self _)

theorem finishDepot_blobs (idx : Index) (d : Depot) :
    (idx.finishDepot d).blobs.Perm d.blobs :=
  List.perm_insertionSort _ _

theorem load_inRange (blobEntries datEntries : List DirEntry) :
    (load dates blobEntries datEntries).InRange := by
  have hblobs : (blobEntries.foldl (addBlob dates) empty).InRange := by
    refine List.foldlRecOn blobEntries _ ⟨by simp [empty], by simp [empty], by simp [empty]⟩ ?_
    exact fun idx h e _ => h.addBlob e
  have hdats : (datEntries.foldl addDat (blobEntries.foldl (addBlob dates) empty)).InRange :=
    List.foldlRecOn datEntries _ hblobs fun idx h e _ => h.addDat e
  refine ⟨hdats.blobByKey, hdats.datByKey, fun x hx b hb => ?_⟩
  obtain ⟨y, hy, rfl⟩ := List.mem_map.mp hx
  exact hdats.depots y hy b ((finishDepot_blobs _ _).mem_iff.mp hb)

theorem mem_of_lookup {κ ν : Type} [BEq κ] [LawfulBEq κ] {l : List (κ × ν)} {k : κ} {v : ν}
    (h : l.lookup k = some v) : (k, v) ∈ l := by
  obtain ⟨l₁, l₂, rfl, -⟩ := List.lookup_eq_some_iff.mp h
  simp

theorem InRange.findBlob {idx : Index} (h : idx.InRange) {depot version crc : UInt32} {id : ℕ}
    (hid : idx.findBlob depot version crc = some id) : id < idx.blobs.length :=
  h.blobByKey _ (mem_of_lookup hid)

theorem InRange.blobsWithVersion {idx : Index} (h : idx.InRange) {depot version : UInt32} {id : ℕ}
    (hid : id ∈ idx.blobsWithVersion depot version) : id < idx.blobs.length := by
  unfold Index.blobsWithVersion at hid
  split at hid
  · simp at hid
  · next dep hdep => exact h.depots _ (mem_of_lookup hdep) id (List.mem_filter.mp hid).1

end Range
end Index
end Steam2Fs
