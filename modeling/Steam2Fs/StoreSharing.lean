import Steam2Fs.StoreTables

/-!
# Processes that share a cache directory

Several processes may be started over one dump with the same cache directory,
each with keys and options of its own, some of them without the cache. Each has
its caches in memory to itself; the files are everybody's, and so are the
temporary files that are renamed to cache files. Two processes that fetch one
blob write the same temporary file: the second one empties it under the hands
of the first, and either may rename it while the other still writes.

A file is read and written in pieces, whose sizes the operating system chooses,
and any call of it may fail, except that a cache file that is there can be
read. What can be found in a file made for a blob is then a torn copy of the
fetched bytes: no longer than they are, and at each place their byte or the
zero of a hole. Such a copy may be read in place of the whole. It does no harm
where its size is not the listed one or the parser rejects it, as then the blob
is fetched. So a blob loads in each process as it would with the directory to
itself, unless the parser takes a torn copy of the listed size for another
blob; and no file that was of use to somebody is touched.
-/

namespace Steam2Fs
open Outcome

structure Options where
  keys : KeyStore
  cfg : StoreConfig

def Dump.under (d : Dump) (o : Options) : Dump := { d with keys := o.keys, cfg := o.cfg }

/-! ### Torn copies -/

/-- Writing past the end of a file leaves zeros before what is written. -/
def writeAt (content : Bytes) (off : ℕ) (piece : Bytes) : Bytes :=
  if piece = [] then content
  else content.take off ++ List.replicate (off - content.length) 0 ++ piece ++
    content.drop (off + piece.length)

def Torn (whole copy : Bytes) : Prop :=
  ∀ j x, copy[j]? = some x → j < whole.length ∧ (x = 0 ∨ whole[j]? = some x)

section Torn
variable {whole copy piece : Bytes}

theorem byte_of_start {l l' : Bytes} (h : l <+: l') {j : ℕ} {x : UInt8}
    (hx : l[j]? = some x) : l'[j]? = some x := by
  obtain ⟨hj, rfl⟩ := List.getElem?_eq_some_iff.mp hx
  exact List.prefix_iff_getElem?.mp h j hj

theorem torn_nil : Torn whole [] := fun _ _ h => by cases h

theorem Torn.writeAt (h : Torn whole copy) {off : ℕ} (hpiece : piece <+: whole.drop off) :
    Torn whole (writeAt copy off piece) := by
  have hget {i : ℕ} {x : UInt8} (hx : piece[i]? = some x) : whole[off + i]? = some x := by
    rw [← List.getElem?_drop]
    exact byte_of_start hpiece hx
  unfold Steam2Fs.writeAt
  split_ifs with hnil
  · exact h
  · intro j x hx
    have hoff : off < whole.length := by
      have hlen := hpiece.length_le
      rw [List.length_drop] at hlen
      have hpos := List.length_pos_iff.mpr hnil
      omega
    have hbefore : (copy.take off ++ List.replicate (off - copy.length) 0).length = off := by
      rw [List.length_append, List.length_take, List.length_replicate]
      omega
    rw [List.getElem?_append, List.length_append, hbefore] at hx
    split_ifs at hx with hend
    · rw [List.getElem?_append, hbefore] at hx
      split_ifs at hx with hstart
      · rw [List.getElem?_append] at hx
        split_ifs at hx
        · exact h j x (byte_of_start (List.take_prefix off copy) hx)
        · exact ⟨by omega, Or.inl (List.eq_of_mem_replicate (List.mem_of_getElem? hx))⟩
      · have hwhole := hget hx
        rw [Nat.add_sub_cancel' (Nat.le_of_not_lt hstart)] at hwhole
        exact ⟨(List.getElem?_eq_some_iff.mp hwhole).1, Or.inr hwhole⟩
    · rw [List.getElem?_drop, Nat.add_sub_cancel' (Nat.le_of_not_lt hend)] at hx
      exact h j x hx

theorem Torn.append (hcopy : Torn whole copy) {content : Bytes} (hcontent : Torn whole content)
    (hpiece : piece <+: content.drop copy.length) : Torn whole (copy ++ piece) := by
  intro j x hx
  rw [List.getElem?_append] at hx
  split_ifs at hx with hj
  · exact hcopy j x hx
  · have hget := byte_of_start hpiece hx
    rw [List.getElem?_drop, Nat.add_sub_cancel' (Nat.le_of_not_lt hj)] at hget
    exact hcontent j x hget

end Torn

/-! ### The directory -/

/-- A file under the name of a blob: the one that was found there, to which
nobody writes, or the `n`-th of those that were made for the blob. -/
inductive CacheFile where
  | found (bytes : Bytes)
  | made (n : ℕ)

/-- What the directory holds for a blob: the file under its name, the temporary
one, and all that were made, whether they still have a name or not. -/
structure CacheEntry where
  cached : Option CacheFile
  tmp : Option ℕ
  files : List Bytes

namespace CacheEntry

def asFound (file : Option Bytes) : CacheEntry := ⟨file.map .found, none, []⟩

def content (e : CacheEntry) : CacheFile → Bytes
  | .found bytes => bytes
  | .made n => e.files.getD n []

def file (e : CacheEntry) : Option Bytes := e.cached.map e.content

/-- `File::create`, which empties a file that is there. -/
def create (e : CacheEntry) : ℕ × CacheEntry :=
  match e.tmp with
  | some n => (n, { e with files := e.files.set n [] })
  | none => (e.files.length, { e with tmp := some e.files.length, files := e.files ++ [[]] })

def write (e : CacheEntry) (n off : ℕ) (piece : Bytes) : CacheEntry :=
  { e with files := e.files.set n (writeAt (e.files.getD n []) off piece) }

/-- `rename(tmp, p)`. -/
def rename (e : CacheEntry) : Bool × CacheEntry :=
  match e.tmp with
  | some n => (true, { e with cached := some (.made n), tmp := none })
  | none => (false, e)

def removeTmp (e : CacheEntry) : CacheEntry := { e with tmp := none }

def removeCached (e : CacheEntry) : CacheEntry := { e with cached := none }

end CacheEntry

/-- The blobs each process has parsed, and the files of the directory. -/
structure Processes (ι : Type) where
  memory : ι → List (ℕ × ParsedBlob)
  dir : ℕ → CacheEntry

namespace Processes
variable {ι : Type}

def new (dir₀ : ℕ → Option Bytes) : Processes ι := ⟨fun _ => [], fun id => .asFound (dir₀ id)⟩

def onEntry {ε α : Type} (id : ℕ) (f : CacheEntry → α × CacheEntry) : Call (Processes ι) ε α :=
  Call.atomic fun t =>
    ((f (t.dir id)).1, { t with dir := Function.update t.dir id (f (t.dir id)).2 })

/-- What the operating system makes of one attempt to write a cache file: which
of the calls succeed, and the pieces in which the bytes are written before the
rest, if that comes to it. -/
structure Attempt where
  created : Bool
  pieces : List ℕ
  complete : Bool
  renamed : Bool
  removed : Bool

/-- The same for a load, which may write a cache file twice, and may have to
remove one in between. -/
structure Conditions where
  pieces : List ℕ
  first : Attempt
  removed : Bool
  again : Attempt

/-- The loop of `write_all`; no piece is empty. -/
def writeAll {ε : Type} (id n : ℕ) (bytes : Bytes) (complete : Bool) :
    List ℕ → ℕ → Call (Processes ι) ε Bool
  | [], off =>
    if complete then onEntry id fun e => (true, e.write n off (bytes.drop off)) else pure false
  | k :: ks, off => do
    let _ ← onEntry id fun e => ((), e.write n off ((bytes.drop off).take (k + 1)))
    writeAll id n bytes complete ks (off + (k + 1))

/-- `std::fs::write`, and whether it succeeds. -/
def writeTmp {ε : Type} (id : ℕ) (bytes : Bytes) (w : Attempt) : Call (Processes ι) ε Bool :=
  if w.created then do
    let n ← onEntry id CacheEntry.create
    writeAll id n bytes w.complete w.pieces 0
  else pure false

def putFile {ε : Type} (id : ℕ) (bytes : Bytes) (w : Attempt) : Call (Processes ι) ε Unit := do
  let written ← writeTmp id bytes w
  let renamed ← (if written && w.renamed then onEntry id CacheEntry.rename else pure false)
  if !renamed && w.removed then onEntry id fun e => ((), e.removeTmp) else pure ()

/-- The loop of `read_to_end`, whose last round takes what is there by then. -/
def readPieces {ε : Type} (id : ℕ) (f : CacheFile) : List ℕ → Bytes → Call (Processes ι) ε Bytes
  | [], out => Call.read fun t => out ++ ((t.dir id).content f).drop out.length
  | k :: ks, out => do
    let piece ← Call.read fun t => (((t.dir id).content f).drop out.length).take (k + 1)
    readPieces id f ks (out ++ piece)

/-- `std::fs::read` of a cache file, if there is one. -/
def readFile {ε : Type} (id : ℕ) (pieces : List ℕ) : Call (Processes ι) ε (Option Bytes) := do
  match ← Call.read fun t => (t.dir id).cached with
  | none => pure none
  | some f =>
    let bytes ← readPieces id f pieces []
    pure (some bytes)

section Loading
variable (d : Dump)

def fetchBlob (id : ℕ) (w : Attempt) : Call (Processes ι) AnyhowError Bytes := do
  let bytes ← Call.lift (d.backendBytes id)
  let _ ← (if d.cfg.blobCacheDir then putFile id bytes w else pure ())
  pure bytes

def blobBytesCached (id : ℕ) (os : Conditions) : Call (Processes ι) AnyhowError (Bytes × Bool) := do
  let entry ← Call.lift (d.blob id)
  let file ← (if d.cfg.blobCacheDir then readFile id os.pieces else pure none)
  match file.filter fun bytes => bytes.length = entry.size.toNat with
  | some bytes => pure (bytes, true)
  | none =>
    let bytes ← fetchBlob d id os.first
    pure (bytes, false)

def parseBytes (id : ℕ) (entry : BlobEntry) (bytes : Bytes) (fromCache : Bool) (os : Conditions) :
    Call (Processes ι) AnyhowError ParsedBlob :=
  match parseBlob d.codec bytes with
  | .ok p => pure p
  | .panic => Call.lift .panic
  | .err e =>
    if fromCache then do
      let _ ← (if os.removed then onEntry id fun e => ((), e.removeCached) else pure ())
      let bytes ← fetchBlob d id os.again
      Call.lift ((parseBlob d.codec bytes).mapErr (Dump.parsingContext entry))
    else Call.lift (.err (Dump.parsingContext entry e))

variable [DecidableEq ι] (i : ι)

def getParsed (id : ℕ) : Call (Processes ι) ReadError (Option ParsedBlob) :=
  Call.atomic fun t => (Lru.get id (t.memory i),
    { t with memory := Function.update t.memory i (Lru.touch id (t.memory i)) })

def putParsed (id : ℕ) (p : ParsedBlob) : Call (Processes ι) ReadError Unit :=
  Call.modify fun t =>
    { t with memory := Function.update t.memory i (Lru.put PARSED_CAPACITY id p (t.memory i)) }

def parseUncached (id : ℕ) (os : Conditions) : Call (Processes ι) ReadError ParsedBlob := do
  match ← getParsed i id with
  | some p => pure p
  | none =>
    let (bytes, fromCache) ← (blobBytesCached d id os).mapErr .other
    let entry ← Call.lift (d.blob id)
    let p ← (parseBytes d id entry bytes fromCache os).mapErr .other
    putParsed i id p
    pure p

def parsed (id : ℕ) (os : Conditions) : Call (Processes ι) ReadError ParsedBlob := do
  match ← getParsed i id with
  | some p => pure p
  | none => parseUncached d i id os

end Loading

structure Load (ι : Type) where
  process : ι
  id : ℕ
  os : Conditions

def prog [DecidableEq ι] (d : Dump) (opts : ι → Options) (c : Load ι) :
    Proc (Processes ι) (Outcome ReadError ParsedBlob) :=
  parsed (d.under (opts c.process)) c.process c.id c.os

end Processes

namespace Dump
variable {d : Dump} {dir₀ : ℕ → Option Bytes} {id : ℕ}

/-- The cache file of a blob, if it has the listed size, does not parse. -/
def Useless (d : Dump) (dir : ℕ → Option Bytes) (id : ℕ) : Prop :=
  ∀ entry bytes, d.index.blobs[id]? = some entry → dir id = some bytes →
    bytes.length = entry.size.toNat → ∃ e, parseBlob d.codec bytes = .err e

theorem cachedBytes_under {o : Options} {entry : BlobEntry} {bytes : Bytes} :
    (d.under o).cachedBytes dir₀ id entry = some bytes ↔ o.cfg.blobCacheDir = true ∧
      dir₀ id = some bytes ∧ bytes.length = entry.size.toNat := by
  unfold cachedBytes
  simp only [under]
  split_ifs with hon
  · simp [hon, Option.filter_eq_some_iff]
  · simp [hon]

theorem stale_under (o : Options) (id : ℕ) :
    (d.under o).Stale dir₀ id ↔ (o.cfg.blobCacheDir = true → d.Useless dir₀ id) := by
  constructor
  · intro hstale hon entry bytes hentry hdir hsize
    exact hstale entry bytes hentry (cachedBytes_under.mpr ⟨hon, hdir, hsize⟩)
  · intro h entry bytes hentry hbytes
    obtain ⟨hon, hdir, hsize⟩ := cachedBytes_under.mp hbytes
    exact h hon entry bytes hentry hdir hsize

def TornCopy (d : Dump) (id : ℕ) (bytes : Bytes) : Prop :=
  ∃ whole, d.backendBytes id = .ok whole ∧ Torn whole bytes

/-- Every file of the directory is as it was, or was of no use to anybody and
has been taken away or replaced by a torn copy of what the backend holds. -/
def Healed (d : Dump) (dir₀ dir : ℕ → Option Bytes) : Prop :=
  ∀ id, dir id = dir₀ id ∨ d.Useless dir₀ id ∧ ∀ bytes, dir id = some bytes → d.TornCopy id bytes

/-- The parser takes a torn copy of the listed size for something else than the
whole, and does not reject it. -/
def Misread (d : Dump) (id : ℕ) (a : Outcome ReadError ParsedBlob) : Prop :=
  ∃ entry whole copy, d.index.blobs[id]? = some entry ∧ d.backendBytes id = .ok whole ∧
    Torn whole copy ∧ copy.length = entry.size.toNat ∧
    parseBlob d.codec copy ≠ parseBlob d.codec whole ∧
    (∀ e, parseBlob d.codec copy ≠ .err e) ∧ a = (parseBlob d.codec copy).mapErr .other

section Sharing
variable {ι : Type} {opts : ι → Options}

structure EntryInv (d : Dump) (dir₀ : ℕ → Option Bytes) (id : ℕ) (e : CacheEntry) : Prop where
  torn : ∀ bytes ∈ e.files, d.TornCopy id bytes
  tmp : ∀ n, e.tmp = some n → n < e.files.length
  cached : e.cached = (dir₀ id).map .found ∨ d.Useless dir₀ id ∧
    (e.cached = none ∨ ∃ n < e.files.length, e.cached = some (.made n))

/-- What a process may answer for a blob. -/
def Told (d : Dump) (o : Options) (dir₀ : ℕ → Option Bytes) (id : ℕ)
    (a : Outcome ReadError ParsedBlob) : Prop :=
  a = (d.under o).loaded dir₀ id ∨ o.cfg.blobCacheDir = true ∧ d.Misread id a

structure SharedInv (d : Dump) (opts : ι → Options) (dir₀ : ℕ → Option Bytes)
    (t : Processes ι) : Prop where
  memory : ∀ i, ∀ e ∈ t.memory i, d.Told (opts i) dir₀ e.1 (.ok e.2)
  dir : ∀ id, d.EntryInv dir₀ id (t.dir id)

/-! ### One file -/

section Entry
variable {e : CacheEntry} {whole : Bytes}

theorem entryInv_asFound : d.EntryInv dir₀ id (.asFound (dir₀ id)) where
  torn := fun _ h => absurd h List.not_mem_nil
  tmp := fun _ h => by cases h
  cached := Or.inl rfl

theorem EntryInv.made_torn (h : d.EntryInv dir₀ id e) (hwhole : d.backendBytes id = .ok whole)
    (n : ℕ) : Torn whole (e.content (.made n)) := by
  show Torn whole (e.files.getD n [])
  rw [List.getD_eq_getElem?_getD]
  cases hn : e.files[n]? with
  | none => exact torn_nil
  | some bytes =>
    obtain ⟨whole', hwhole', htorn⟩ := h.torn bytes (List.mem_of_getElem? hn)
    rw [hwhole] at hwhole'
    cases hwhole'
    exact htorn

theorem EntryInv.set (h : d.EntryInv dir₀ id e) {n : ℕ} {bytes : Bytes}
    (hbytes : d.TornCopy id bytes) :
    d.EntryInv dir₀ id { e with files := e.files.set n bytes } where
  torn := fun c hc => by
    rcases List.mem_or_eq_of_mem_set hc with hc | rfl
    · exact h.torn c hc
    · exact hbytes
  tmp := fun m hm => by
    rw [List.length_set]
    exact h.tmp m hm
  cached := by
    rw [List.length_set]
    exact h.cached

theorem EntryInv.create (h : d.EntryInv dir₀ id e) (hwhole : d.backendBytes id = .ok whole) :
    d.EntryInv dir₀ id e.create.2 := by
  have hempty : d.TornCopy id [] := ⟨whole, hwhole, torn_nil⟩
  unfold CacheEntry.create
  split
  · exact h.set hempty
  · refine ⟨fun c hc => ?_, fun m hm => ?_, ?_⟩
    · rcases List.mem_append.mp hc with hc | hc
      · exact h.torn c hc
      · rw [List.mem_singleton.mp hc]
        exact hempty
    · cases hm
      simp
    · refine h.cached.imp_right fun ⟨huseless, hfile⟩ => ⟨huseless, hfile.imp_right ?_⟩
      rintro ⟨n, hn, hfile⟩
      exact ⟨n, by rw [List.length_append]; omega, hfile⟩

theorem EntryInv.write (h : d.EntryInv dir₀ id e) (hwhole : d.backendBytes id = .ok whole)
    {off : ℕ} {piece : Bytes} (hpiece : piece <+: whole.drop off) (n : ℕ) :
    d.EntryInv dir₀ id (e.write n off piece) :=
  h.set ⟨whole, hwhole, (h.made_torn hwhole n).writeAt hpiece⟩

theorem EntryInv.rename (h : d.EntryInv dir₀ id e) (huseless : d.Useless dir₀ id) :
    d.EntryInv dir₀ id e.rename.2 := by
  unfold CacheEntry.rename
  split
  · next n htmp =>
    exact ⟨h.torn, fun _ hm => (by cases hm), Or.inr ⟨huseless, Or.inr ⟨n, h.tmp n htmp, rfl⟩⟩⟩
  · exact h

theorem EntryInv.removeTmp (h : d.EntryInv dir₀ id e) : d.EntryInv dir₀ id e.removeTmp :=
  ⟨h.torn, fun _ hm => (by cases hm), h.cached⟩

theorem EntryInv.removeCached (h : d.EntryInv dir₀ id e) (huseless : d.Useless dir₀ id) :
    d.EntryInv dir₀ id e.removeCached :=
  ⟨h.torn, h.tmp, Or.inr ⟨huseless, Or.inl rfl⟩⟩

end Entry

/-! ### The calls of a process -/

section Calls
variable {ε α : Type}

theorem onEntry_keeps {f : CacheEntry → α × CacheEntry} {Q : Outcome ε α → Prop}
    (h : ∀ e, d.EntryInv dir₀ id e → d.EntryInv dir₀ id (f e).2 ∧ Q (.ok (f e).1)) :
    (Processes.onEntry id f : Call (Processes ι) ε α).Keeps (d.SharedInv opts dir₀) Q := by
  refine Call.keeps_atomic fun t ht => ⟨⟨ht.memory, fun j => ?_⟩, (h _ (ht.dir id)).2⟩
  dsimp only
  by_cases hj : j = id
  · subst hj
    rw [Function.update_self]
    exact (h _ (ht.dir j)).1
  · rw [Function.update_of_ne hj]
    exact ht.dir j

/-- A call that only ever succeeds. -/
abbrev Succeeds (a : Outcome ε α) : Prop := ∃ x, a = .ok x

theorem writeAll_keeps {bytes : Bytes} (hbytes : d.backendBytes id = .ok bytes) (n : ℕ)
    (complete : Bool) (ks : List ℕ) (off : ℕ) :
    (Processes.writeAll id n bytes complete ks off : Call (Processes ι) ε Bool).Keeps
      (d.SharedInv opts dir₀) Succeeds := by
  have hwrite {α : Type} (off : ℕ) {piece : Bytes} (hpiece : piece <+: bytes.drop off) (x : α) :
      (Processes.onEntry id fun e => (x, e.write n off piece) : Call (Processes ι) ε α).Keeps
        (d.SharedInv opts dir₀) Succeeds :=
    onEntry_keeps fun e he => ⟨he.write hbytes hpiece n, _, rfl⟩
  induction ks generalizing off with
  | nil =>
    unfold Processes.writeAll
    split_ifs
    · exact hwrite off List.prefix_rfl true
    · exact Call.keeps_lift (r := .ok _) ⟨_, rfl⟩
  | cons k ks ih =>
    exact (hwrite off (List.take_prefix _ _) ()).bind (fun _ _ => ih _) (by simp) (by simp)

theorem putFile_keeps {bytes : Bytes} (hbytes : d.backendBytes id = .ok bytes)
    (huseless : d.Useless dir₀ id) (w : Processes.Attempt) :
    (Processes.putFile id bytes w : Call (Processes ι) ε Unit).Keeps (d.SharedInv opts dir₀)
      Succeeds := by
  have hwritten : (Processes.writeTmp id bytes w : Call (Processes ι) ε Bool).Keeps
      (d.SharedInv opts dir₀) Succeeds := by
    unfold Processes.writeTmp
    split_ifs
    · have hcreate : (Processes.onEntry id CacheEntry.create : Call (Processes ι) ε ℕ).Keeps
          (d.SharedInv opts dir₀) Succeeds :=
        onEntry_keeps fun e he => ⟨he.create hbytes, _, rfl⟩
      exact hcreate.bind (fun n _ => writeAll_keeps hbytes n _ _ _) (by simp) (by simp)
    · exact Call.keeps_lift (r := .ok _) ⟨_, rfl⟩
  refine hwritten.bind (fun written _ => ?_) (by simp) (by simp)
  have hrenamed : (if written && w.renamed then Processes.onEntry id CacheEntry.rename
      else pure false : Call (Processes ι) ε Bool).Keeps (d.SharedInv opts dir₀) Succeeds := by
    split_ifs
    · exact onEntry_keeps fun e he => ⟨he.rename huseless, _, rfl⟩
    · exact Call.keeps_lift (r := .ok _) ⟨_, rfl⟩
  refine hrenamed.bind (fun renamed _ => ?_) (by simp) (by simp)
  split_ifs
  · exact onEntry_keeps fun e he => ⟨he.removeTmp, _, rfl⟩
  · exact Call.keeps_lift (r := .ok _) ⟨_, rfl⟩

/-- What reading the cache file of a blob can give. -/
def Reads (d : Dump) (dir₀ : ℕ → Option Bytes) (id : ℕ) (o : Option Bytes) : Prop :=
  o = dir₀ id ∨ d.Useless dir₀ id ∧ ∀ bytes, o = some bytes → d.TornCopy id bytes

theorem readPieces_found {bytes : Bytes} (ks : List ℕ) {out : Bytes} (hout : out <+: bytes) :
    (Processes.readPieces id (.found bytes) ks out : Call (Processes ι) ε Bytes).Answers
      (d.SharedInv opts dir₀) (.ok bytes) := by
  induction ks generalizing out with
  | nil =>
    refine Call.keeps_atomic fun t ht => ⟨ht, ?_⟩
    exact congrArg Outcome.ok (List.prefix_iff_eq_append.mp hout)
  | cons k ks ih =>
    refine Call.Keeps.bind (Q := fun a => a = .ok ((bytes.drop out.length).take (k + 1)))
      (Call.keeps_atomic fun t ht => ⟨ht, rfl⟩) (fun piece hpiece => ?_) (by simp) (by simp)
    cases hpiece
    apply ih
    obtain ⟨rest, rfl⟩ := hout
    rw [List.drop_left]
    exact (List.prefix_append_right_inj out).mpr (List.take_prefix _ _)

theorem readPieces_made {whole : Bytes} (hwhole : d.backendBytes id = .ok whole) (n : ℕ)
    (ks : List ℕ) {out : Bytes} (hout : Torn whole out) :
    (Processes.readPieces id (.made n) ks out : Call (Processes ι) ε Bytes).Keeps
      (d.SharedInv opts dir₀) fun a => ∃ bytes, a = .ok bytes ∧ Torn whole bytes := by
  induction ks generalizing out with
  | nil =>
    refine Call.keeps_atomic fun t ht => ⟨ht, _, rfl, ?_⟩
    exact hout.append ((ht.dir id).made_torn hwhole n) List.prefix_rfl
  | cons k ks ih =>
    refine Call.Keeps.bind (Q := fun a => ∃ piece, a = .ok piece ∧ Torn whole (out ++ piece))
      (Call.keeps_atomic fun t ht => ⟨ht, _, rfl, ?_⟩) (fun piece hpiece => ?_) (by simp) (by simp)
    · exact hout.append ((ht.dir id).made_torn hwhole n) (List.take_prefix _ _)
    · obtain ⟨_, heq, htorn⟩ := hpiece
      cases heq
      exact ih htorn

theorem readFile_keeps (ks : List ℕ) :
    (Processes.readFile id ks : Call (Processes ι) ε (Option Bytes)).Keeps (d.SharedInv opts dir₀)
      fun a => ∃ o, a = .ok o ∧ d.Reads dir₀ id o := by
  have hopen : (Call.read fun t => (t.dir id).cached :
      Call (Processes ι) ε (Option CacheFile)).Keeps (d.SharedInv opts dir₀) fun a =>
        ∃ f, a = .ok f ∧ (f = (dir₀ id).map .found ∨ d.Useless dir₀ id ∧ (f = none ∨
          ∃ n whole, f = some (.made n) ∧ d.backendBytes id = .ok whole)) := by
    refine Call.keeps_atomic fun t ht => ⟨ht, _, rfl, ?_⟩
    refine (ht.dir id).cached.imp_right fun ⟨huseless, hfile⟩ => ⟨huseless, hfile.imp_right ?_⟩
    rintro ⟨n, hn, hfile⟩
    obtain ⟨whole, hwhole, -⟩ := (ht.dir id).torn _ (List.getElem_mem hn)
    exact ⟨n, whole, hfile, hwhole⟩
  refine hopen.bind (fun f hf => ?_) (by simp) (by simp)
  obtain ⟨_, heq, hf⟩ := hf
  cases heq
  have hgone (huseless : d.Useless dir₀ id) : d.Reads dir₀ id none :=
    Or.inr ⟨huseless, fun _ h => by cases h⟩
  rcases hf with rfl | ⟨huseless, rfl | ⟨n, whole, rfl, hwhole⟩⟩
  · cases hfile : dir₀ id with
    | none => exact Call.keeps_lift (r := .ok none) ⟨none, rfl, Or.inl hfile.symm⟩
    | some bytes =>
      refine Call.Keeps.bind (readPieces_found ks List.nil_prefix) (fun b hb => ?_) (by simp)
        (by simp)
      cases hb
      exact Call.keeps_lift (r := .ok (some bytes)) ⟨some bytes, rfl, Or.inl hfile.symm⟩
  · exact Call.keeps_lift (r := .ok none) ⟨none, rfl, hgone huseless⟩
  · refine (readPieces_made hwhole n ks torn_nil).bind (fun b hb => ?_) (by simp) (by simp)
    obtain ⟨_, heq, htorn⟩ := hb
    cases heq
    refine Call.keeps_lift (r := .ok (some b))
      ⟨some b, rfl, Or.inr ⟨huseless, fun bytes hbytes => ?_⟩⟩
    cases hbytes
    exact ⟨whole, hwhole, htorn⟩

end Calls

section Loading
variable {o : Options} {entry : BlobEntry}

theorem fetchBlob_shared (hstale : (d.under o).Stale dir₀ id) (w : Processes.Attempt) :
    (Processes.fetchBlob (d.under o) id w : Call (Processes ι) AnyhowError Bytes).Answers
      (d.SharedInv opts dir₀) (d.backendBytes id) := by
  refine (Call.answers_lift _).bind_self fun bytes hbytes => ?_
  have hput : (if (d.under o).cfg.blobCacheDir then Processes.putFile id bytes w else pure () :
      Call (Processes ι) AnyhowError Unit).Keeps (d.SharedInv opts dir₀) Succeeds := by
    split_ifs with hon
    · exact putFile_keeps (d := d) hbytes ((stale_under o id).mp hstale hon) w
    · exact Call.keeps_lift (r := .ok _) ⟨_, rfl⟩
  exact hput.bind (fun _ _ => Call.keeps_lift (r := .ok bytes) hbytes.symm) (by simp) (by simp)

/-- Where the bytes handed to the parser can come from, which may be a copy of
the listed size that is torn. -/
def SharedSupplies (d : Dump) (o : Options) (dir₀ : ℕ → Option Bytes) (id : ℕ)
    (entry : BlobEntry) (a : Outcome AnyhowError (Bytes × Bool)) : Prop :=
  (d.under o).Supplies dir₀ id entry a ∧
      (∀ bytes, a = .ok (bytes, true) → o.cfg.blobCacheDir = true) ∨
    (d.under o).Stale dir₀ id ∧ o.cfg.blobCacheDir = true ∧
      ∃ copy, a = .ok (copy, true) ∧ copy.length = entry.size.toNat ∧ d.TornCopy id copy

theorem blobBytesCached_shared (hentry : d.index.blobs[id]? = some entry)
    (os : Processes.Conditions) :
    (Processes.blobBytesCached (d.under o) id os :
      Call (Processes ι) AnyhowError (Bytes × Bool)).Keeps (d.SharedInv opts dir₀)
        (d.SharedSupplies o dir₀ id entry) := by
  have hblob : ((d.under o).blob id : Outcome AnyhowError BlobEntry) = .ok entry :=
    blob_eq_ok.mpr hentry
  have hread : (if (d.under o).cfg.blobCacheDir then Processes.readFile id os.pieces
      else pure none : Call (Processes ι) AnyhowError (Option Bytes)).Keeps
        (d.SharedInv opts dir₀) fun a => ∃ file, a = .ok file ∧
          (o.cfg.blobCacheDir = true ∧ d.Reads dir₀ id file ∨
            o.cfg.blobCacheDir = false ∧ file = none) := by
    split_ifs with hon
    · refine (readFile_keeps os.pieces).mono ?_
      rintro a ⟨file, rfl, hfile⟩
      exact ⟨file, rfl, Or.inl ⟨hon, hfile⟩⟩
    · exact Call.keeps_lift (r := .ok none) ⟨none, rfl, Or.inr ⟨eq_false_of_ne_true hon, rfl⟩⟩
  unfold Processes.blobBytesCached
  rw [hblob]
  refine hread.bind (fun file hfile => ?_) (by simp) (by simp)
  obtain ⟨_, heq, hfile⟩ := hfile
  cases heq
  cases hcount : file.filter fun bytes => bytes.length = entry.size.toNat with
  | some bytes =>
    obtain ⟨rfl, hsize⟩ := Option.filter_eq_some_iff.mp hcount
    have hsize : bytes.length = entry.size.toNat := of_decide_eq_true hsize
    rcases hfile with ⟨hon, hsame | ⟨huseless, htorn⟩⟩ | ⟨-, hnone⟩
    · exact Or.inl ⟨Or.inl ⟨cachedBytes_under.mpr ⟨hon, hsame.symm, hsize⟩, rfl⟩, fun _ _ => hon⟩
    · exact Or.inr ⟨(stale_under o id).mpr fun _ => huseless, hon, bytes, rfl, hsize,
        htorn bytes rfl⟩
    · cases hnone
  | none =>
    have hstale : (d.under o).Stale dir₀ id := by
      refine (stale_under o id).mpr fun hon => ?_
      rcases hfile with ⟨-, rfl | ⟨huseless, -⟩⟩ | ⟨hoff, -⟩
      · intro entry' bytes hentry' hdir hsize
        rw [hentry] at hentry'
        cases hentry'
        simp [hdir, hsize] at hcount
      · exact huseless
      · rw [hoff] at hon
        cases hon
    refine Call.Keeps.bind (fetchBlob_shared hstale os.first) (fun bytes hbytes => ?_)
      (fun e he => ?_) fun hp => ?_
    · exact Or.inl ⟨Or.inr ⟨hstale, hbytes.symm⟩, fun _ h => by cases h⟩
    · exact Or.inl ⟨⟨hstale, he.symm⟩, fun _ h => by cases h⟩
    · exact Or.inl ⟨⟨hstale, hp.symm⟩, fun _ h => by cases h⟩

theorem loaded_of_stale (hentry : d.index.blobs[id]? = some entry)
    (hstale : (d.under o).Stale dir₀ id) {r : Outcome AnyhowError Bytes}
    (hr : d.backendBytes id = r) :
    (d.under o).loaded dir₀ id =
      (r >>= fun bytes => (parseBlob d.codec bytes).mapErr (parsingContext entry)).mapErr
        .other := by
  have hentry' : (d.under o).index.blobs[id]? = some entry := hentry
  rw [loaded, loadAnyhow_of_stale hentry' hstale, ← hr]
  rfl

theorem parseBytes_shared (hentry : d.index.blobs[id]? = some entry) {bytes : Bytes}
    {fromCache : Bool} (hsup : d.SharedSupplies o dir₀ id entry (.ok (bytes, fromCache)))
    (os : Processes.Conditions) :
    (Processes.parseBytes (d.under o) id entry bytes fromCache os :
      Call (Processes ι) AnyhowError ParsedBlob).Keeps (d.SharedInv opts dir₀) fun a =>
        d.Told o dir₀ id (a.mapErr .other) := by
  have hentry' : (d.under o).index.blobs[id]? = some entry := hentry
  have refetch (hstale : (d.under o).Stale dir₀ id) (hon : o.cfg.blobCacheDir = true) :
      (do let _ ← (if os.removed then Processes.onEntry id fun e => ((), e.removeCached)
            else pure ())
          let bytes ← Processes.fetchBlob (d.under o) id os.again
          Call.lift ((parseBlob (d.under o).codec bytes).mapErr (parsingContext entry)) :
        Call (Processes ι) AnyhowError ParsedBlob).Keeps (d.SharedInv opts dir₀) fun a =>
          d.Told o dir₀ id (a.mapErr .other) := by
    have hremove : (if os.removed then Processes.onEntry id fun e => ((), e.removeCached)
        else pure () : Call (Processes ι) AnyhowError Unit).Keeps (d.SharedInv opts dir₀) Succeeds := by
      split_ifs
      · exact onEntry_keeps fun e he =>
          ⟨he.removeCached ((stale_under o id).mp hstale hon), _, rfl⟩
      · exact Call.keeps_lift (r := .ok _) ⟨_, rfl⟩
    refine hremove.bind (fun _ _ => ?_) (by simp) (by simp)
    refine Call.Keeps.bind (fetchBlob_shared hstale os.again) (fun bytes hbytes => ?_)
      (fun e he => ?_) fun hp => ?_
    · exact Or.inl (loaded_of_stale hentry hstale hbytes.symm).symm
    · exact Or.inl (loaded_of_stale hentry hstale he.symm).symm
    · exact Or.inl (loaded_of_stale hentry hstale hp.symm).symm
  unfold Processes.parseBytes
  rcases hsup with ⟨⟨hc, rfl⟩ | ⟨hstale, hback⟩, hon⟩ | ⟨hstale, hon, copy, heq, hsize, whole,
    hwhole, htorn⟩
  · have hload : (d.under o).loadAnyhow dir₀ id = match parseBlob (d.under o).codec bytes with
        | .ok p => .ok p
        | .panic => .panic
        | .err _ => (d.under o).loadBackend id entry := by
      unfold loadAnyhow
      rewrite [blob_eq_ok.mpr hentry', ok_bind, hc]
      rfl
    cases hparse : parseBlob (d.under o).codec bytes with
    | ok p => exact Or.inl (by rw [loaded, hload, hparse])
    | panic => exact Or.inl (by rw [loaded, hload, hparse])
    | err e =>
      refine refetch (fun entry₁ bytes₁ hentry₁ hc₁ => ?_) (hon bytes rfl)
      rw [hentry'] at hentry₁
      cases hentry₁
      rw [hc] at hc₁
      cases hc₁
      exact ⟨e, hparse⟩
  · have hload := loaded_of_stale hentry hstale hback
    rw [ok_bind] at hload
    cases hparse : parseBlob (d.under o).codec bytes with
    | ok p => exact Or.inl (by rw [hload, show parseBlob d.codec bytes = _ from hparse]; rfl)
    | panic => exact Or.inl (by rw [hload, show parseBlob d.codec bytes = _ from hparse]; rfl)
    | err e =>
      cases fromCache with
      | true => exact refetch hstale (hon bytes rfl)
      | false => exact Or.inl (by rw [hload, show parseBlob d.codec bytes = _ from hparse]; rfl)
  · cases heq
    have hload := loaded_of_stale hentry hstale hwhole
    rw [ok_bind] at hload
    have htold (hreturns : ∀ e, parseBlob d.codec bytes ≠ .err e) :
        d.Told o dir₀ id ((parseBlob d.codec bytes).mapErr .other) := by
      by_cases hsame : parseBlob d.codec bytes = parseBlob d.codec whole
      · refine Or.inl ?_
        rw [hload, ← hsame]
        cases hparse : parseBlob d.codec bytes with
        | ok p => rfl
        | panic => rfl
        | err e => exact absurd hparse (hreturns e)
      · exact Or.inr ⟨hon, entry, whole, bytes, hentry, hwhole, htorn, hsize, hsame, hreturns, rfl⟩
    cases hparse : parseBlob (d.under o).codec bytes with
    | ok p =>
      have hparse : parseBlob d.codec bytes = .ok p := hparse
      rw [hparse] at htold
      exact htold fun e he => by cases he
    | panic =>
      have hparse : parseBlob d.codec bytes = .panic := hparse
      rw [hparse] at htold
      exact htold fun e he => by cases he
    | err e => exact refetch hstale hon

variable [DecidableEq ι] {i : ι}

theorem SharedInv.remember {t : Processes ι} (h : d.SharedInv opts dir₀ t)
    {entries : List (ℕ × ParsedBlob)}
    (hentries : ∀ e ∈ entries, d.Told (opts i) dir₀ e.1 (.ok e.2)) :
    d.SharedInv opts dir₀ { t with memory := Function.update t.memory i entries } := by
  refine ⟨fun j e he => ?_, h.dir⟩
  dsimp only at he
  by_cases hj : j = i
  · subst hj
    rw [Function.update_self] at he
    exact hentries e he
  · rw [Function.update_of_ne hj] at he
    exact h.memory j e he

theorem getParsed_shared :
    (Processes.getParsed i id).Keeps (d.SharedInv opts dir₀) fun a =>
      a = .ok none ∨ ∃ p, a = .ok (some p) ∧ d.Told (opts i) dir₀ id (.ok p) := by
  refine Call.keeps_atomic fun t ht =>
    ⟨ht.remember fun e he => ht.memory i e (Lru.mem_touch he), ?_⟩
  cases hg : Lru.get id (t.memory i) with
  | none => exact Or.inl rfl
  | some p => exact Or.inr ⟨p, rfl, ht.memory i _ (Lru.mem_of_get hg)⟩

theorem putParsed_shared {p : ParsedBlob} (h : d.Told (opts i) dir₀ id (.ok p)) :
    (Processes.putParsed i id p).Answers (d.SharedInv opts dir₀) (.ok ()) := by
  refine Call.keeps_atomic fun t ht => ⟨ht.remember fun e he => ?_, rfl⟩
  rcases Lru.mem_put he with rfl | he
  · exact h
  · exact ht.memory i e he

theorem parseUncached_shared (os : Processes.Conditions) :
    (Processes.parseUncached (d.under (opts i)) i id os).Keeps (d.SharedInv opts dir₀)
      (d.Told (opts i) dir₀ id) := by
  refine getParsed_shared.bind (fun r hr => ?_) (by simp) (by simp)
  rcases hr with hr | ⟨p, hr, hp⟩
  swap
  · cases hr
    exact hp
  cases hr
  cases hentry : d.index.blobs[id]? with
  | none =>
    have hblob {ε : Type} : ((d.under (opts i)).blob id : Outcome ε BlobEntry) = .panic := by
      unfold blob
      rw [show (d.under (opts i)).index.blobs[id]? = none from hentry]
    have hload : (d.under (opts i)).loaded dir₀ id = .panic := by
      unfold loaded loadAnyhow
      rw [hblob]
      rfl
    have hbytes : (Processes.blobBytesCached (d.under (opts i)) id os :
        Call (Processes ι) AnyhowError (Bytes × Bool)) = Call.lift .panic := by
      unfold Processes.blobBytesCached
      rw [hblob]
      rfl
    rw [hbytes]
    exact Or.inl hload.symm
  | some entry =>
    have hentry' : (d.under (opts i)).index.blobs[id]? = some entry := hentry
    have hmap : ((Processes.blobBytesCached (d.under (opts i)) id os).mapErr ReadError.other :
        Call (Processes ι) ReadError (Bytes × Bool)).Keeps (d.SharedInv opts dir₀) fun r =>
          ∃ r', d.SharedSupplies (opts i) dir₀ id entry r' ∧ r = r'.mapErr .other :=
      (blobBytesCached_shared hentry os).mapErr fun r hr => ⟨r, hr, rfl⟩
    refine hmap.bind ?_ ?_ ?_
    · rintro ⟨bytes, fromCache⟩ ⟨r, hsup, hr⟩
      rw [mapErr_eq_ok.mp hr.symm] at hsup
      rw [blob_eq_ok.mpr hentry']
      have hparsed : ((Processes.parseBytes (d.under (opts i)) id entry bytes fromCache os).mapErr
          ReadError.other : Call (Processes ι) ReadError ParsedBlob).Keeps (d.SharedInv opts dir₀)
            (d.Told (opts i) dir₀ id) :=
        (parseBytes_shared hentry hsup os).mapErr fun _ ha => ha
      refine hparsed.bind (fun p hp => ?_) (fun _ he => he) fun hp => hp
      exact Call.Keeps.bind (putParsed_shared hp) (fun _ _ => hp) (by simp) (by simp)
    · rintro e ⟨r, hsup, hr⟩
      obtain ⟨e', rfl, rfl⟩ := mapErr_eq_err.mp hr.symm
      rcases hsup with ⟨⟨hstale, hback⟩, -⟩ | ⟨-, -, _, heq, -⟩
      · exact Or.inl (loaded_of_stale hentry hstale hback).symm
      · cases heq
    · rintro ⟨r, hsup, hr⟩
      rw [mapErr_eq_panic.mp hr.symm] at hsup
      rcases hsup with ⟨⟨hstale, hback⟩, -⟩ | ⟨-, -, _, heq, -⟩
      · exact Or.inl (loaded_of_stale hentry hstale hback).symm
      · cases heq

theorem parsed_shared (os : Processes.Conditions) :
    (Processes.parsed (d.under (opts i)) i id os).Keeps (d.SharedInv opts dir₀)
      (d.Told (opts i) dir₀ id) := by
  refine getParsed_shared.bind (fun o ho => ?_) (by simp) (by simp)
  rcases ho with ho | ⟨p, ho, hp⟩
  · cases ho
    exact parseUncached_shared os
  · cases ho
    exact hp

end Loading

/-! ### Any number of processes -/

theorem EntryInv.healed {t : Processes ι} (h : ∀ id, d.EntryInv dir₀ id (t.dir id)) :
    d.Healed dir₀ fun id => (t.dir id).file := by
  intro id
  dsimp only
  unfold CacheEntry.file
  rcases (h id).cached with hsame | ⟨huseless, hgone | ⟨n, hn, hmade⟩⟩
  · refine Or.inl ?_
    rw [hsame]
    cases dir₀ id <;> rfl
  · exact Or.inr ⟨huseless, fun bytes hbytes => by simp [hgone] at hbytes⟩
  · refine Or.inr ⟨huseless, fun bytes hbytes => ?_⟩
    rw [hmade, Option.map_some, Option.some.injEq] at hbytes
    subst hbytes
    show d.TornCopy id ((t.dir id).files.getD n [])
    rw [List.getD_eq_getElem?_getD, List.getElem?_eq_getElem hn, Option.getD_some]
    exact (h id).torn _ (List.getElem_mem hn)

variable [DecidableEq ι]

/-- Whatever any number of processes do, with the keys and options each of them
has and whatever fails, a blob loads in each process as it would from the
directory as it was found, unless a torn copy is misread by a process with the
cache; and no file that was of use to somebody has been touched. -/
theorem shared_cache_unnoticed (d : Dump) (opts : ι → Options) (dir₀ : ℕ → Option Bytes)
    {pool : Pool (Processes ι) (Processes.Load ι) (Outcome ReadError ParsedBlob)}
    (hpool : Pool.Reachable (Processes.prog d opts) Set.univ (fun _ _ => False)
      (Processes.new dir₀) pool) :
    (∀ c a, pool.Answered c a →
      a = (((d.under (opts c.process)).parsed c.id).run
        (Store.new (d.under (opts c.process)) dir₀)).1 ∨
      (opts c.process).cfg.blobCacheDir = true ∧ d.Misread c.id a) ∧
    d.Healed dir₀ fun id => (pool.state.dir id).file := by
  have hkeeps : ∀ c ∈ (Set.univ : Set (Processes.Load ι)), (Processes.prog d opts c).Keeps
      (d.SharedInv opts dir₀) (d.Told (opts c.process) dir₀ c.id) :=
    fun c _ => parsed_shared c.os
  have hnew : d.SharedInv opts dir₀ (Processes.new dir₀) :=
    ⟨fun _ _ he => absurd he List.not_mem_nil, fun _ => entryInv_asFound⟩
  refine ⟨fun c a ha => ?_, EntryInv.healed (hpool.keeps hkeeps (fun _ _ h => h.elim) hnew).1.dir⟩
  have halone : (((d.under (opts c.process)).parsed c.id).run
      (Store.new (d.under (opts c.process)) dir₀)).1 =
        (d.under (opts c.process)).loaded dir₀ c.id := parsed_answers.run Loads.new
  rw [halone]
  exact hpool.answered hkeeps (fun _ _ h => h.elim) hnew ha

/-- The first two of three processes use the cache. -/
def firstTwoCache (i : Fin 3) : Options :=
  ⟨.empty, { StoreConfig.plain with blobCacheDir := i.val < 2 }⟩

/-- Everything succeeds, and files are read and written in two pieces. -/
def calm : Processes.Conditions :=
  ⟨[3], ⟨true, [3], true, true, true⟩, true, ⟨true, [3], true, true, true⟩⟩

def loading (i : Fin 3) : Processes.Load (Fin 3) := ⟨i, 1, calm⟩

/-- The second process empties the temporary file between the last write of the
first one and its renaming. -/
def emptied : Pool (Processes (Fin 3)) (Processes.Load (Fin 3)) (Outcome ReadError ParsedBlob) :=
  Pool.follow [0, 0, 0, 0, 0, 0, 1, 1, 1, 1, 0]
    ⟨.new fun _ => none, [0, 1].map fun i =>
      (loading i, Processes.prog twoVersions.dump firstTwoCache (loading i))⟩

theorem emptied_reachable : Pool.Reachable (Processes.prog twoVersions.dump firstTwoCache) Set.univ
    (fun _ _ => False) (.new fun _ => none) emptied :=
  ((Relation.ReflTransGen.refl.tail (.spawn (Set.mem_univ (loading 0)))).tail
    (.spawn (Set.mem_univ (loading 1)))).trans (Pool.follow_reaches _ _)

set_option maxRecDepth 20000 in
theorem shared_cache_unnoticed_twoVersions :
    ∃ (pool : Pool (Processes (Fin 3)) (Processes.Load (Fin 3)) (Outcome ReadError ParsedBlob))
      (a : Outcome ReadError ParsedBlob), pool.Answered (loading 2) a ∧
        (pool.state.dir 1).file = some [] ∧
        a = (((twoVersions.dump.under (firstTwoCache 2)).parsed 1).run
          (Store.new (twoVersions.dump.under (firstTwoCache 2)) fun _ => none)).1 ∧
        twoVersions.dump.Healed (fun _ => none) fun id => (pool.state.dir id).file := by
  have hpool := emptied_reachable.call (Set.mem_univ (loading 2))
  obtain ⟨hall, hhealed⟩ := shared_cache_unnoticed twoVersions.dump firstTwoCache _ hpool
  have hans := List.mem_append_right emptied.threads (List.mem_singleton_self
    (loading 2, Proc.done ((Processes.prog twoVersions.dump firstTwoCache (loading 2)).run
      emptied.state).1))
  rcases hall _ _ hans with hsame | ⟨hon, -⟩
  · exact ⟨⟨_, _⟩, _, hans, by decide +kernel, hsame, hhealed⟩
  · exact absurd hon (by decide)

end Sharing
end Dump
end Steam2Fs
