import Steam2Fs.FuseArchive
import Steam2Fs.IndexOrder
import Steam2Fs.WinVolume

/-!
# An archive behind a Windows volume

Over a dump that holds an archive every call of a volume has one answer,
whichever calls run beside it: the key of a path, its information, its listing
and the bytes of its file are functions of the index and the archive. From
these answers a caller can copy a file, told by the end of it and nothing else
when to stop, and opens under a listed name what the listing shows.
-/

namespace Steam2Fs.WinFs
open Outcome Text
open Steam2Fs.Tree (TreeError Meta Entry)

/-! ### The answers -/

section Meaning
variable (t : Tree) (cacheDir : ℕ → Option Bytes)

def stepAt (key : Tree.Key) (component : Str) : Outcome TreeError Tree.Key :=
  if component = ".".toList then .ok key
  else if component = "..".toList then Fuse.parentOf t cacheDir key
  else componentOf t cacheDir (resolve t key) component

def walkAt : Tree.Key → List Str → Outcome TreeError Tree.Key
  | key, [] => .ok key
  | key, component :: rest => do
    let key ← stepAt t cacheDir key component
    walkAt key rest

def pathAt (fileName : List UInt16) : Outcome TreeError Tree.Key := do
  let key ← walkAt t cacheDir .root (components (fromUtf16Lossy fileName))
  .ok (resolve t key)

end Meaning

namespace Volume
variable (v : Volume) (cacheDir : ℕ → Option Bytes) (A : Archive v.tree.store.codec)

def metaAt (key : Tree.Key) : Outcome NtStatus Meta := (v.tree.metaAt cacheDir A key).mapErr status

def openAt (fileName : List UInt16) : Outcome NtStatus (Context × FileInfo) := do
  let key ← (pathAt v.tree cacheDir fileName).mapErr status
  let info ← v.metaAt cacheDir A key
  let filled ← v.fillInfo info
  .ok (⟨key, info.kind⟩, filled)

def infoAt (key : Tree.Key) : Outcome NtStatus FileInfo := do
  let info ← v.metaAt cacheDir A key
  v.fillInfo info

def readAt (key : Tree.Key) (room : ℕ) (offset : UInt64) : Outcome NtStatus (UInt32 × Bytes) := do
  let y ← (v.tree.placeOf cacheDir A key).mapErr status
  let data := slice y.2.2.content offset.toNat (offset.toNat + room)
  if y.2.2.content.length ≤ offset.toNat then .err .endOfFile
  else .ok (UInt32.ofNat data.length, data)

def rowsAt : Context → Outcome NtStatus (List DirRow) :=
  v.readDirectoryWith (fun key => (v.metaAt cacheDir A key).attempt)
    (fun key => (Fuse.parentOf v.tree cacheDir key).mapErr status)
    fun key => (v.tree.entriesOf cacheDir key).mapErr status

def securityAt (fileName : List UInt16) (room : Option ℕ) : Outcome NtStatus VolumeReply := do
  let key ← (pathAt v.tree cacheDir fileName).mapErr status
  let info ← v.metaAt cacheDir A key
  .ok (.fileSecurity (attributes info) (UInt64.ofNat v.security.length) (v.descriptor room))

end Volume

def VolumeOp.told (v : Volume) (cacheDir : ℕ → Option Bytes) (A : Archive v.tree.store.codec) :
    VolumeOp → Outcome NtStatus VolumeReply
  | .getSecurityByName fileName room => v.securityAt cacheDir A fileName room
  | .openPath fileName =>
    v.openAt cacheDir A fileName >>= fun o => .ok (VolumeReply.opened o.1 o.2)
  | .getFileInfo c => v.infoAt cacheDir A c.key >>= fun info => .ok (VolumeReply.info info)
  | .getSecurity _ room => .ok (.security (UInt64.ofNat v.security.length) (v.descriptor room))
  | .read c room offset =>
    v.readAt cacheDir A c.key room offset >>= fun x => .ok (VolumeReply.data x.1 x.2)
  | .readDirectory c => v.rowsAt cacheDir A c >>= fun rows => .ok (VolumeReply.rows rows)

section Answers
variable {v : Volume} {cacheDir : ℕ → Option Bytes} {A : Archive v.tree.store.codec}

theorem lookupComponent_serves (dir : Tree.Key) (name : Str) :
    (lookupComponent v.tree dir name).Answers (v.tree.store.ServeInv cacheDir A)
      (componentOf v.tree cacheDir dir name) := by
  refine (Tree.lookup_serves dir (utf8 name)).bind fun found _ => ?_
  cases found with
  | some found => exact Call.answers_pure _
  | none =>
    refine (Tree.entries_serves dir).bind fun es _ => ?_
    cases es.find? fun e => eqIgnoreAsciiCase (shownName e) name with
    | some e => exact Call.answers_pure _
    | none => exact Call.answers_lift _

theorem pathStep_serves (key : Tree.Key) (component : Str) :
    (pathStep v.tree key component).Answers (v.tree.store.ServeInv cacheDir A)
      (stepAt v.tree cacheDir key component) := by
  unfold pathStep stepAt
  split_ifs
  · exact Call.answers_pure _
  · exact Tree.parent_serves key
  · exact lookupComponent_serves _ component

theorem walkPath_serves (key : Tree.Key) (cs : List Str) :
    (walkPath v.tree key cs).Answers (v.tree.store.ServeInv cacheDir A)
      (walkAt v.tree cacheDir key cs) := by
  induction cs generalizing key with
  | nil => exact Call.answers_pure _
  | cons c cs ih => exact (pathStep_serves key c).bind fun next _ => ih next

theorem resolvePath_serves (fileName : List UInt16) :
    (resolvePath v.tree fileName).Answers (v.tree.store.ServeInv cacheDir A)
      (pathAt v.tree cacheDir fileName) :=
  (walkPath_serves _ _).bind fun _ _ => Call.answers_pure _

variable (h : v.tree.store.Packed cacheDir A) (hbounded : v.tree.store.Bounded cacheDir)
include h hbounded

theorem metaOf_serves (key : Tree.Key) :
    (v.metaOf key).Answers (v.tree.store.ServeInv cacheDir A) (v.metaAt cacheDir A key) :=
  (Tree.metaOf_answers h hbounded key).mapErr

theorem openPath_serves (fileName : List UInt16) :
    (v.openPath fileName).Answers (v.tree.store.ServeInv cacheDir A)
      (v.openAt cacheDir A fileName) := by
  refine (resolvePath_serves fileName).mapErr.bind fun key _ => ?_
  refine (metaOf_serves h hbounded key).bind fun info _ => ?_
  exact (Call.answers_lift _).bind fun _ _ => Call.answers_pure _

theorem getFileInfo_serves (c : Context) :
    (v.getFileInfo c).Answers (v.tree.store.ServeInv cacheDir A) (v.infoAt cacheDir A c.key) :=
  (metaOf_serves h hbounded c.key).bind fun _ _ => Call.answers_lift _

theorem getSecurityByName_serves (fileName : List UInt16) (room : Option ℕ) :
    (v.getSecurityByName fileName room).Answers (v.tree.store.ServeInv cacheDir A)
      (v.securityAt cacheDir A fileName room) := by
  refine (resolvePath_serves fileName).mapErr.bind fun key _ => ?_
  exact (metaOf_serves h hbounded key).bind fun _ _ => Call.answers_pure _

/-- The sum that a caller could overflow is never formed: what is asked of the
store ends with the file. -/
theorem read_serves (c : Context) (room : ℕ) (offset : UInt64) :
    (v.read c room offset).Answers (v.tree.store.ServeInv cacheDir A)
      (v.readAt cacheDir A c.key room offset) := by
  have hlocate := (Tree.locate_place h hbounded c.key).mapErr (g := status)
  cases hplace : v.tree.placeOf cacheDir A c.key with
  | err e =>
    rw [hplace] at hlocate
    refine (hlocate.bind (g := fun _ => .panic) fun loc hloc => by cases hloc).mono ?_
    rintro a rfl
    rw [Volume.readAt, hplace]
    rfl
  | panic =>
    rw [hplace] at hlocate
    refine (hlocate.bind (g := fun _ => .panic) fun loc hloc => by cases hloc).mono ?_
    rintro a rfl
    rw [Volume.readAt, hplace]
    rfl
  | ok y =>
    rw [hplace] at hlocate
    obtain ⟨hb, hx⟩ := Tree.mem_of_place h hplace
    have hfits := h.fits_placed hb hx
    have hsize : (A.loc y.1 y.2).record.size.toNat = y.2.2.content.length := hfits.size _
    have hcap := hfits.content_le.trans_lt (show isizeMax < 2 ^ 63 by decide)
    rw [Volume.readAt, hplace]
    refine hlocate.after ?_
    rw [mapErr_ok, ok_bind]
    dsimp only
    by_cases hend : y.2.2.content.length ≤ offset.toNat
    · rw [if_pos hend, if_pos (UInt64.le_iff_toNat_le.mpr (hsize ▸ hend))]
      exact Call.answers_lift _
    · have hlt : offset.toNat < y.2.2.content.length := Nat.not_le.mp hend
      have hnot : ¬ (A.loc y.1 y.2).record.size ≤ offset := fun hle =>
        hend (hsize ▸ UInt64.le_iff_toNat_le.mp hle)
      have hleft : ((A.loc y.1 y.2).record.size - offset).toNat =
          y.2.2.content.length - offset.toNat := by
        rw [UInt64.toNat_sub_of_le _ _ (UInt64.le_iff_toNat_le.mpr (by omega)), hsize]
      rw [if_neg hend, if_neg hnot, hleft]
      have hwant : (UInt64.ofNat (min room (y.2.2.content.length - offset.toNat))).toNat =
          min room (y.2.2.content.length - offset.toNat) :=
        UInt64.toNat_ofNat_of_lt' ((min_le_right _ _).trans_lt (by
          have := hcap
          unfold UInt64.size
          omega))
      have hread := (Tree.read_serves h hb hx offset
        (UInt64.ofNat (min room (y.2.2.content.length - offset.toNat)))
        (by omega)).mapErr (g := status)
      have hdata : slice y.2.2.content offset.toNat (offset.toNat +
          (UInt64.ofNat (min room (y.2.2.content.length - offset.toNat))).toNat) =
            slice y.2.2.content offset.toNat (offset.toNat + room) := by
        rw [hwant, slice_min, slice_min _ _ (offset.toNat + room)]
        congr 1
        omega
      rw [hdata] at hread
      refine hread.after ?_
      have hroom : (slice y.2.2.content offset.toNat (offset.toNat + room)).length ≤ room := by
        rw [slice_length]
        omega
      rw [if_pos hroom]
      exact Call.answers_lift _

/-! ### Listings -/

theorem metaOf_attempt (key : Tree.Key) :
    ((v.metaOf key).attempt : VolumeCall (Except NtStatus Meta)).Answers
      (v.tree.store.ServeInv cacheDir A) (v.metaAt cacheDir A key).attempt :=
  (metaOf_serves h hbounded key).attempt

theorem dotRows_serves (key : Tree.Key) :
    (v.dotRows (fun key => (v.metaOf key).attempt)
      (fun key => (v.tree.parent key).mapErr status) key : VolumeCall (List DirRow)).Answers
      (v.tree.store.ServeInv cacheDir A)
      (v.dotRows (fun key => (v.metaAt cacheDir A key).attempt)
        (fun key => (Fuse.parentOf v.tree cacheDir key).mapErr status) key) := by
  unfold Volume.dotRows
  split_ifs
  · exact Call.answers_pure _
  · refine (metaOf_attempt h hbounded key).bind fun found _ => ?_
    refine (Call.answers_lift _).bind fun this _ => ?_
    refine (Call.answers_lift _).bind fun first _ => ?_
    refine (Tree.parent_serves key).mapErr.bind fun up _ => ?_
    refine (metaOf_attempt h hbounded _).bind fun found _ => ?_
    exact (Call.answers_lift _).bind fun second _ => Call.answers_pure _

theorem entryRows_serves (es : List Entry) :
    (v.entryRows (fun key => (v.metaOf key).attempt) es : VolumeCall (List DirRow)).Answers
      (v.tree.store.ServeInv cacheDir A)
      (v.entryRows (fun key => (v.metaAt cacheDir A key).attempt) es) := by
  induction es with
  | nil => exact Call.answers_pure _
  | cons e rest ih =>
    have hrow : (v.entryRow (fun key => (v.metaOf key).attempt) e : VolumeCall DirRow).Answers
        (v.tree.store.ServeInv cacheDir A)
        (v.entryRow (fun key => (v.metaAt cacheDir A key).attempt) e) :=
      (metaOf_attempt h hbounded _).bind fun found _ => Call.answers_lift _
    refine hrow.bind fun first _ => ?_
    exact ih.bind fun others _ => Call.answers_pure _

theorem readDirectory_serves (c : Context) :
    (v.readDirectory c).Answers (v.tree.store.ServeInv cacheDir A) (v.rowsAt cacheDir A c) := by
  unfold Volume.readDirectory Volume.rowsAt Volume.readDirectoryWith
  split_ifs
  · exact Call.answers_lift _
  · refine (Tree.entries_serves c.key).mapErr.bind fun es _ => ?_
    refine (dotRows_serves h hbounded c.key).bind fun dots _ => ?_
    exact (entryRows_serves h hbounded es).bind fun rows _ => Call.answers_pure _

/-! ### Every call -/

theorem prog_serves (op : VolumeOp) :
    (op.prog v).Answers (v.tree.store.ServeInv cacheDir A) (op.told v cacheDir A) := by
  cases op with
  | getSecurityByName fileName room => exact getSecurityByName_serves h hbounded fileName room
  | openPath fileName =>
    exact (openPath_serves h hbounded fileName).bind fun _ _ => Call.answers_pure _
  | getFileInfo c => exact (getFileInfo_serves h hbounded c).bind fun _ _ => Call.answers_pure _
  | getSecurity c room => exact Call.answers_lift _
  | read c room offset =>
    exact (read_serves h hbounded c room offset).bind fun _ _ => Call.answers_pure _
  | readDirectory c => exact (readDirectory_serves h hbounded c).bind fun _ _ => Call.answers_pure _

theorem told_of_run {p : VolumePool} (hp : VolumeRun v cacheDir p) {op : VolumeOp}
    {a : Outcome NtStatus VolumeReply} (ha : p.Answered op a) : a = op.told v cacheDir A :=
  hp.answered (fun op _ => prog_serves h hbounded op) (fun _ _ hf => hf.elim)
    Dump.ServeInv.new ha

end Answers

/-! ### Files -/

/-- Reads that a caller makes one after the other, each where the count of the
one before leads. -/
def Copying (reads : UInt64 → ℕ → UInt32 → Bytes → Prop) :
    UInt64 → List (UInt32 × UInt32 × Bytes) → UInt64 → Prop
  | start, [], stop => start = stop
  | start, (room, count, bytes) :: rest, stop =>
    reads start room.toNat count bytes ∧ Copying reads (start + count.toUInt64) rest stop

/-- What is open is a file with this content: its information says how long it
is, a read is told the end exactly from there on, and a caller that goes on
until then has copied the file. -/
structure OpensFile (c : Context) (info : FileInfo) (content : Bytes)
    (answered : VolumeOp → Outcome NtStatus VolumeReply → Prop) : Prop where
  kind : c.kind = .file
  attributes : info.fileAttributes = FILE_ATTRIBUTE_READONLY
  size : info.fileSize.toNat = content.length
  allocation : ALLOCATION_UNIT ∣ info.allocationSize.toNat ∧
    content.length ≤ info.allocationSize.toNat ∧
    info.allocationSize.toNat < content.length + ALLOCATION_UNIT
  getFileInfo : ∀ a, answered (.getFileInfo c) a → a = .ok (.info info)
  read : ∀ room offset a, answered (.read c room offset) a →
    a = if content.length ≤ offset.toNat then .err .endOfFile
      else .ok (.data (UInt32.ofNat (min room (content.length - offset.toNat)))
        (slice content offset.toNat (offset.toNat + room)))
  copy : ∀ chunks stop room,
    Copying (fun offset room count bytes =>
      answered (.read c room offset) (.ok (.data count bytes))) 0 chunks stop →
    answered (.read c room stop) (.err .endOfFile) →
    (chunks.map fun x => x.2.2).flatten = content

theorem copying_slice {reads : UInt64 → ℕ → UInt32 → Bytes → Prop} {content : Bytes}
    (hcap : content.length < 2 ^ 63)
    (hreads : ∀ offset room count bytes, reads offset room count bytes →
      offset.toNat < content.length ∧
      count = UInt32.ofNat (min room (content.length - offset.toNat)) ∧
      bytes = slice content offset.toNat (offset.toNat + room))
    {chunks : List (UInt32 × UInt32 × Bytes)} {start stop : UInt64}
    (h : Copying reads start chunks stop) :
    start.toNat ≤ stop.toNat ∧
      (chunks.map fun x => x.2.2).flatten = slice content start.toNat stop.toNat := by
  induction chunks generalizing start with
  | nil =>
    have hsame : start = stop := h
    subst hsame
    have hnil : slice content start.toNat start.toNat = [] := by
      rw [← List.length_eq_zero_iff, slice_length, Nat.sub_self]
    exact ⟨le_rfl, hnil.symm⟩
  | cons x rest ih =>
    obtain ⟨hread, hrest⟩ := h
    obtain ⟨hlt, hcount, hbytes⟩ := hreads _ _ _ _ hread
    have hroom := x.1.toNat_lt
    have hcounted : x.2.1.toNat = min x.1.toNat (content.length - start.toNat) := by
      rw [hcount]
      exact UInt32.toNat_ofNat_of_lt' ((min_le_left _ _).trans_lt hroom)
    have hnext : (start + x.2.1.toUInt64).toNat = start.toNat + x.2.1.toNat := by
      rw [UInt64.toNat_add, UInt32.toNat_toUInt64, Nat.mod_eq_of_lt (by omega)]
    obtain ⟨hle, hflat⟩ := ih hrest
    rw [hnext] at hle hflat
    have hcut : slice content start.toNat (start.toNat + x.1.toNat) =
        slice content start.toNat (start.toNat + x.2.1.toNat) := by
      rw [slice_min, slice_min _ _ (start.toNat + x.2.1.toNat), hcounted]
      congr 1
      omega
    refine ⟨by omega, ?_⟩
    rw [List.map_cons, List.flatten_cons, hbytes, hflat, hcut]
    exact slice_append (Nat.le_add_right _ _) hle

section Files
variable {v : Volume} {cacheDir : ℕ → Option Bytes} {A : Archive v.tree.store.codec}

theorem openAt_eq_ok {fileName : List UInt16} {c : Context} {info : FileInfo}
    (h : v.openAt cacheDir A fileName = .ok (c, info)) :
    pathAt v.tree cacheDir fileName = .ok c.key ∧
      ∃ m, v.tree.metaAt cacheDir A c.key = .ok m ∧ c.kind = m.kind ∧ v.fillInfo m = .ok info := by
  obtain ⟨key, hkey, h⟩ := bind_eq_ok.mp h
  obtain ⟨m, hm, h⟩ := bind_eq_ok.mp h
  obtain ⟨filled, hfill, h⟩ := bind_eq_ok.mp h
  cases h
  exact ⟨mapErr_eq_ok.mp hkey, m, mapErr_eq_ok.mp hm, rfl, hfill⟩

theorem infoAt_of_open {c : Context} {info : FileInfo} {m : Meta}
    (hm : v.tree.metaAt cacheDir A c.key = .ok m) (hfill : v.fillInfo m = .ok info) :
    v.infoAt cacheDir A c.key = .ok info := by
  rw [Volume.infoAt, Volume.metaAt, hm, mapErr_ok, ok_bind, hfill]

theorem fillInfo_file {m : Meta} {info : FileInfo} (hkind : m.kind = .file)
    (hcap : m.size.toNat < 2 ^ 63) (h : v.fillInfo m = .ok info) :
    info.fileAttributes = FILE_ATTRIBUTE_READONLY ∧ info.fileSize = m.size ∧
      ALLOCATION_UNIT ∣ info.allocationSize.toNat ∧
      m.size.toNat ≤ info.allocationSize.toNat ∧
      info.allocationSize.toNat < m.size.toNat + ALLOCATION_UNIT := by
  unfold Volume.fillInfo u64Mul at h
  dsimp only at h
  have hunits : (m.size.toNat + ALLOCATION_UNIT - 1) / ALLOCATION_UNIT * ALLOCATION_UNIT <
      2 ^ 64 := by
    unfold ALLOCATION_UNIT
    omega
  rw [if_pos hunits, ok_bind] at h
  cases h
  have hallocation : (UInt64.ofNat ((m.size.toNat + ALLOCATION_UNIT - 1) / ALLOCATION_UNIT *
      ALLOCATION_UNIT)).toNat =
        (m.size.toNat + ALLOCATION_UNIT - 1) / ALLOCATION_UNIT * ALLOCATION_UNIT :=
    UInt64.toNat_ofNat_of_lt' hunits
  refine ⟨?_, rfl, ?_, ?_, ?_⟩
  · unfold attributes
    rw [hkind]
    rfl
  · rw [hallocation]
    exact Dvd.intro_left _ rfl
  · rw [hallocation]
    unfold ALLOCATION_UNIT
    omega
  · rw [hallocation]
    unfold ALLOCATION_UNIT
    omega

/-- In every run of a volume, whatever else is asked beside it: what was opened
is the packed file. -/
theorem volume_serves_files (h : v.tree.store.Packed cacheDir A)
    (hbounded : v.tree.store.Bounded cacheDir) {p : VolumePool} (hp : VolumeRun v cacheDir p)
    {fileName : List UInt16} {c : Context} {info : FileInfo}
    (hopened : p.Answered (.openPath fileName) (.ok (.opened c info))) :
    (∀ y, v.tree.placeOf cacheDir A c.key = .ok y → OpensFile c info y.2.2.content p.Answered) ∧
    ∀ e, v.tree.placeOf cacheDir A c.key = .err e → ∀ room offset a,
      p.Answered (.read c room offset) a → a = .err (status e) := by
  have hopen : v.openAt cacheDir A fileName = .ok (c, info) := by
    obtain ⟨o, ho, heq⟩ := bind_eq_ok.mp (told_of_run h hbounded hp hopened).symm
    cases heq
    exact ho
  obtain ⟨-, m, hm, hkind, hfill⟩ := openAt_eq_ok hopen
  constructor
  · intro y hy
    obtain ⟨hb, hx⟩ := Tree.mem_of_place h hy
    have hcap : y.2.2.content.length < 2 ^ 63 :=
      (h.fits_placed hb hx).content_le.trans_lt (by decide)
    have hsize : (UInt64.ofNat y.2.2.content.length).toNat = y.2.2.content.length :=
      UInt64.toNat_ofNat_of_lt' (hcap.trans (by decide))
    obtain ⟨date, hmeta⟩ := Tree.metaAt_place h hy
    rw [hm] at hmeta
    cases hmeta
    obtain ⟨hattributes, hfile, hallocation⟩ := fillInfo_file rfl (by rw [hsize]; exact hcap) hfill
    rw [hsize] at hallocation
    have hread : ∀ room offset a, p.Answered (.read c room offset) a →
        a = if y.2.2.content.length ≤ offset.toNat then .err .endOfFile
          else .ok (.data (UInt32.ofNat (min room (y.2.2.content.length - offset.toNat)))
            (slice y.2.2.content offset.toNat (offset.toNat + room))) := by
      intro room offset a ha
      have htold := told_of_run h hbounded hp ha
      rw [VolumeOp.told, Volume.readAt, hy, mapErr_ok, ok_bind] at htold
      dsimp only at htold
      rw [htold]
      split_ifs with hend
      · rfl
      · have hcount : (slice y.2.2.content offset.toNat (offset.toNat + room)).length =
            min room (y.2.2.content.length - offset.toNat) := by
          rw [slice_length]
          omega
        rw [hcount, ok_bind]
    refine ⟨hkind, hattributes, by rw [hfile, hsize], hallocation, fun a ha => ?_, hread, ?_⟩
    · rw [told_of_run h hbounded hp ha, VolumeOp.told, infoAt_of_open hm hfill, ok_bind]
    · intro chunks stop room hcopy hend
      have hstop : y.2.2.content.length ≤ stop.toNat := by
        by_contra hlt
        have hdata := hread _ _ _ hend
        rw [if_neg hlt] at hdata
        cases hdata
      have hreads : ∀ offset room count bytes,
          p.Answered (.read c room offset) (.ok (.data count bytes)) →
            offset.toNat < y.2.2.content.length ∧
            count = UInt32.ofNat (min room (y.2.2.content.length - offset.toNat)) ∧
            bytes = slice y.2.2.content offset.toNat (offset.toNat + room) := by
        intro offset room count bytes hbytes
        have hdata := hread _ _ _ hbytes
        by_cases hlt : y.2.2.content.length ≤ offset.toNat
        · rw [if_pos hlt] at hdata
          cases hdata
        · rw [if_neg hlt] at hdata
          cases hdata
          exact ⟨Nat.not_le.mp hlt, rfl, rfl⟩
      obtain ⟨-, hflat⟩ := copying_slice hcap hreads hcopy
      rw [hflat, UInt64.toNat_zero]
      exact Fuse.slice_whole hstop
  · intro e he room offset a ha
    rw [told_of_run h hbounded hp ha, VolumeOp.told, Volume.readAt, he]
    rfl

end Files

section Sample

def sampleVolume : Volume := ⟨⟨packedVersions.dump⟩, [], true, fun _ => none⟩

def volumeCall (op : VolumeOp) (p : VolumePool) : VolumePool :=
  let answer := Proc.run (op.prog sampleVolume) p.state
  ⟨answer.2, p.threads ++ [(op, .done answer.1)]⟩

def volumeStart : VolumePool := ⟨Store.new packedVersions.dump fun _ => none, []⟩

theorem volumeCall_run {p : VolumePool} (h : VolumeRun sampleVolume (fun _ => none) p)
    (op : VolumeOp) : VolumeRun sampleVolume (fun _ => none) (volumeCall op p) :=
  Pool.Reachable.call h (Set.mem_univ op)

theorem volumeCall_told {p : VolumePool} (h : VolumeRun sampleVolume (fun _ => none) p)
    (op : VolumeOp) :
    (volumeCall op p).Answered op (op.told sampleVolume (fun _ => none) packedArchive) := by
  have hans : (volumeCall op p).Answered op (Proc.run (op.prog sampleVolume) p.state).1 := by
    simp [Pool.Answered, volumeCall]
  rwa [told_of_run (v := sampleVolume) packedVersions_holds packedVersions_bounded
    (volumeCall_run h op) hans] at hans

def filePath : List UInt16 := utf16 "\\5\\2\\a".toList

set_option maxRecDepth 20000 in
theorem filePath_opens : Prod.fst <$> sampleVolume.openAt (fun _ => none) packedArchive filePath =
    .ok ⟨.node 1 1, .file⟩ := by
  decide +kernel

def fileOpen : VolumePool := volumeCall (.openPath filePath) volumeStart

theorem fileOpen_run : VolumeRun sampleVolume (fun _ => none) fileOpen := volumeCall_run .refl _

theorem fileOpen_opened : ∃ info,
    fileOpen.Answered (.openPath filePath) (.ok (.opened ⟨.node 1 1, .file⟩ info)) := by
  obtain ⟨o, ho, hc⟩ := map_eq_ok.mp filePath_opens
  have htold := volumeCall_told .refl (.openPath filePath)
  have hanswer : VolumeOp.told sampleVolume (fun _ => none) packedArchive (.openPath filePath) =
      .ok (.opened o.1 o.2) := by
    change (sampleVolume.openAt (fun _ => none) packedArchive filePath >>= fun o =>
      .ok (VolumeReply.opened o.1 o.2)) = _
    rw [ho]
    rfl
  rw [hanswer, hc] at htold
  exact ⟨_, htold⟩

theorem sampleVolume_serves_file : ∃ (p : VolumePool) (info : FileInfo),
    OpensFile ⟨.node 1 1, .file⟩ info [1, 2, 3, 4] p.Answered ∧
      p.Answered (.read ⟨.node 1 1, .file⟩ 5 1) (.ok (.data 3 [2, 3, 4])) := by
  obtain ⟨info, hopened⟩ := fileOpen_opened
  obtain ⟨y, hy, hcontent⟩ := map_eq_ok.mp Fuse.mounted_place
  have hopened' : (volumeCall (.read ⟨.node 1 1, .file⟩ 5 1) fileOpen).Answered
      (.openPath filePath) (.ok (.opened ⟨.node 1 1, .file⟩ info)) :=
    List.mem_append_left _ hopened
  have hfile := (volume_serves_files (v := sampleVolume) packedVersions_holds
    packedVersions_bounded (volumeCall_run fileOpen_run (.read ⟨.node 1 1, .file⟩ 5 1))
    hopened').1 y hy
  rw [show y.2.2.content = [1, 2, 3, 4] from congrArg Prod.snd hcontent] at hfile
  have hans := volumeCall_told fileOpen_run (.read ⟨.node 1 1, .file⟩ 5 1)
  have hread := hfile.read 5 1 _ hans
  rw [hread] at hans
  exact ⟨_, info, hfile, hans⟩

end Sample

/-! ### Listings -/

section Paths
variable {t : Tree} {cacheDir : ℕ → Option Bytes}

theorem walkAt_append (key : Tree.Key) (cs : List Str) (c : Str) :
    walkAt t cacheDir key (cs ++ [c]) =
      walkAt t cacheDir key cs >>= fun next => stepAt t cacheDir next c := by
  induction cs generalizing key with
  | nil =>
    have hstep : walkAt t cacheDir key [c] = stepAt t cacheDir key c >>= Outcome.ok := rfl
    rw [List.nil_append, hstep, walkAt, ok_bind]
    cases stepAt t cacheDir key c with
    | ok next => rfl
    | err e => rfl
    | panic => rfl
  | cons c' cs ih =>
    rw [List.cons_append, walkAt, walkAt]
    cases stepAt t cacheDir key c' with
    | ok next => exact ih next
    | err e => rfl
    | panic => rfl

theorem pathAt_append {fileName : List UInt16} {k : Tree.Key} {name : Str}
    (hp : pathAt t cacheDir fileName = .ok k) (hne : name ≠ []) (hslash : '\\' ∉ name)
    (hdot : name ≠ ".".toList) (hdots : name ≠ "..".toList) :
    pathAt t cacheDir (fileName ++ 0x5c :: utf16 name) =
      resolve t <$> componentOf t cacheDir k name := by
  have hpath : components (fromUtf16Lossy (fileName ++ 0x5c :: utf16 name)) =
      components (fromUtf16Lossy fileName) ++ [name] := by
    rw [fromUtf16Lossy_append (by decide), fromUtf16Lossy_utf16]
    exact components_append hne hslash _
  obtain ⟨key, hkey, hresolve⟩ := bind_eq_ok.mp hp
  cases hresolve
  rw [pathAt, hpath, walkAt_append, hkey, ok_bind, stepAt, if_neg hdot, if_neg hdots]
  cases componentOf t cacheDir (resolve t key) name with
  | ok found => rfl
  | err e => rfl
  | panic => rfl

theorem pathAt_shown {fileName : List UInt16} {k : Tree.Key} {es : List Entry} {e : Entry}
    (hp : pathAt t cacheDir fileName = .ok k) (hes : t.entriesOf cacheDir k = .ok es)
    (hplain : Plain t cacheDir k es) (he : e ∈ es) (hknown : Recognised t cacheDir k es e) :
    pathAt t cacheDir (fileName ++ 0x5c :: utf16 (shownName e)) = .ok (resolve t e.key) := by
  have hself := hplain.self e he _ Tree.Visited.new
  rw [Tree.lookup_run .new] at hself
  have hslash : '\\' ∉ shownName e := by
    intro hmem
    exact hplain.noBackslash e he (mem_of_mem_lossy (by decide) hmem)
  have hnil : shownName e ≠ [] := shownName_ne (by simp) (hplain.nonempty e he)
  have hdot := shownName_ne (Tree.ascii_of_all (by decide)) (hplain.noDot e he)
  have hdots := shownName_ne (Tree.ascii_of_all (by decide)) (hplain.noDots e he)
  rw [pathAt_append hp hnil hslash hdot hdots]
  exact (componentOf_shown hes he hself).mpr hknown

end Paths

section Rows
variable {v : Volume} {cacheDir : ℕ → Option Bytes} {A : Archive v.tree.store.codec}

theorem row_eq_ok {name : Str} {m : Meta} {r : DirRow} (h : v.row name m = .ok r) :
    r.name = name ∧ v.fillInfo m = .ok r.info := by
  obtain ⟨filled, hfill, h⟩ := bind_eq_ok.mp h
  cases hrefused : v.refuses name with
  | some code =>
    rw [hrefused] at h
    cases h
  | none =>
    rw [hrefused] at h
    cases h
    exact ⟨rfl, hfill⟩

theorem entryRow_eq_ok {e : Entry} {r : DirRow}
    (h : (v.entryRow (fun key => (v.metaAt cacheDir A key).attempt) e : Outcome NtStatus DirRow) =
      .ok r) :
    r.name = shownName e ∧
      ((∃ m, v.tree.metaAt cacheDir A (resolve v.tree e.key) = .ok m ∧
          v.fillInfo m = .ok r.info) ∨
        ∃ x, v.tree.metaAt cacheDir A (resolve v.tree e.key) = .err x ∧
          v.fillInfo ⟨e.kind, 0, Tree.UNIX_EPOCH⟩ = .ok r.info) := by
  obtain ⟨found, hfound, h⟩ := bind_eq_ok.mp h
  obtain ⟨hname, hfill⟩ := row_eq_ok h
  change ((v.tree.metaAt cacheDir A (resolve v.tree e.key)).mapErr status).attempt = _ at hfound
  cases hmeta : v.tree.metaAt cacheDir A (resolve v.tree e.key) with
  | ok m =>
    rw [hmeta] at hfound
    cases hfound
    exact ⟨hname, .inl ⟨m, rfl, hfill⟩⟩
  | err x =>
    rw [hmeta] at hfound
    cases hfound
    exact ⟨hname, .inr ⟨x, rfl, hfill⟩⟩
  | panic =>
    rw [hmeta] at hfound
    cases hfound

theorem entryRows_eq_ok {es : List Entry} {rows : List DirRow}
    (h : (v.entryRows (fun key => (v.metaAt cacheDir A key).attempt) es :
      Outcome NtStatus (List DirRow)) = .ok rows) :
    List.Forall₂ (fun e r => (v.entryRow (fun key => (v.metaAt cacheDir A key).attempt) e :
      Outcome NtStatus DirRow) = .ok r) es rows := by
  induction es generalizing rows with
  | nil =>
    cases h
    exact .nil
  | cons e rest ih =>
    obtain ⟨first, hfirst, h⟩ := bind_eq_ok.mp h
    obtain ⟨others, hothers, h⟩ := bind_eq_ok.mp h
    cases h
    exact .cons hfirst (ih hothers)

theorem dotRows_eq_ok {c : Context} {m : Meta} {info : FileInfo} {rows : List DirRow}
    (hm : v.tree.metaAt cacheDir A c.key = .ok m) (hfill : v.fillInfo m = .ok info)
    (h : v.dotRows (fun key => (v.metaAt cacheDir A key).attempt)
      (fun key => (Fuse.parentOf v.tree cacheDir key).mapErr status) c.key = .ok rows) :
    if c.key = .root then rows = []
    else ∃ up, rows = [⟨".".toList, info⟩, ⟨"..".toList, up⟩] := by
  unfold Volume.dotRows at h
  split_ifs at h ⊢
  · cases h
    rfl
  · obtain ⟨found, hfound, h⟩ := bind_eq_ok.mp h
    change ((v.tree.metaAt cacheDir A c.key).mapErr status).attempt = _ at hfound
    rw [hm] at hfound
    cases hfound
    obtain ⟨this, hthis, h⟩ := bind_eq_ok.mp h
    cases hthis
    obtain ⟨first, hfirst, h⟩ := bind_eq_ok.mp h
    obtain ⟨up, -, h⟩ := bind_eq_ok.mp h
    obtain ⟨found, -, h⟩ := bind_eq_ok.mp h
    obtain ⟨second, hsecond, h⟩ := bind_eq_ok.mp h
    cases h
    obtain ⟨hname, hinfo⟩ := row_eq_ok hfirst
    obtain ⟨hname', -⟩ := row_eq_ok hsecond
    rw [hfill] at hinfo
    cases hinfo
    refine ⟨second.info, ?_⟩
    rw [← hname, ← hname']

end Rows

/-- What a listing says of an entry: the name it is shown under, and what is
seen by opening the directory's path with that name after it. Where opening it
fails, the row says its kind and no more. -/
def ListedAs (v : Volume) (cacheDir : ℕ → Option Bytes) (fileName : List UInt16)
    (k : Tree.Key) (es : List Entry) (answered : VolumeOp → Outcome NtStatus VolumeReply → Prop)
    (e : Entry) (r : DirRow) : Prop :=
  r.name = shownName e ∧
    (Plain v.tree cacheDir k es → Recognised v.tree cacheDir k es e → ∀ a,
      answered (.openPath (fileName ++ 0x5c :: utf16 r.name)) a →
        (∃ c, a = .ok (.opened c r.info) ∧ c.key = resolve v.tree e.key) ∨
        ∃ x, a = .err (status x) ∧ v.fillInfo ⟨e.kind, 0, Tree.UNIX_EPOCH⟩ = .ok r.info)

/-- In every run: a listing of an open directory is its entries in order, each
with the information that opening it shows, after the two dots. -/
theorem listing_shows_opens {v : Volume} {cacheDir : ℕ → Option Bytes}
    {A : Archive v.tree.store.codec} (h : v.tree.store.Packed cacheDir A)
    (hbounded : v.tree.store.Bounded cacheDir) {p : VolumePool} (hp : VolumeRun v cacheDir p)
    {fileName : List UInt16} {c : Context} {info : FileInfo} {rows : List DirRow}
    (hopened : p.Answered (.openPath fileName) (.ok (.opened c info)))
    (hlisted : p.Answered (.readDirectory c) (.ok (.rows rows))) :
    ∃ es dots others, v.tree.entriesOf cacheDir c.key = .ok es ∧ rows = dots ++ others ∧
      (if c.key = .root then dots = []
        else ∃ up, dots = [⟨".".toList, info⟩, ⟨"..".toList, up⟩]) ∧
      List.Forall₂ (ListedAs v cacheDir fileName c.key es p.Answered) es others := by
  have hopen : v.openAt cacheDir A fileName = .ok (c, info) := by
    obtain ⟨o, ho, heq⟩ := bind_eq_ok.mp (told_of_run h hbounded hp hopened).symm
    cases heq
    exact ho
  obtain ⟨hpath, m, hm, -, hfill⟩ := openAt_eq_ok hopen
  obtain ⟨rows', hrows, heq⟩ := bind_eq_ok.mp (told_of_run h hbounded hp hlisted).symm
  cases heq
  unfold Volume.rowsAt Volume.readDirectoryWith at hrows
  split_ifs at hrows
  obtain ⟨es, hes, hrows⟩ := bind_eq_ok.mp hrows
  obtain ⟨dots, hdots, hrows⟩ := bind_eq_ok.mp hrows
  obtain ⟨others, hothers, hrows⟩ := bind_eq_ok.mp hrows
  cases hrows
  have hentries := mapErr_eq_ok.mp hes
  refine ⟨es, dots, others, hentries, rfl, dotRows_eq_ok hm hfill hdots, ?_⟩
  have hmem := Index.forall₂_mem (entryRows_eq_ok hothers)
  refine hmem.imp fun e r her => ?_
  obtain ⟨hrow, he, -⟩ := her
  obtain ⟨hname, hinfo⟩ := entryRow_eq_ok hrow
  refine ⟨hname, fun hplain hknown a ha => ?_⟩
  have htold := told_of_run h hbounded hp ha
  rw [VolumeOp.told, Volume.openAt, hname, pathAt_shown hpath hentries hplain he hknown, mapErr_ok,
    ok_bind, Volume.metaAt] at htold
  rcases hinfo with ⟨m', hm', hfilled⟩ | ⟨x, hx, hfilled⟩
  · rw [hm', mapErr_ok, ok_bind, hfilled] at htold
    exact .inl ⟨⟨resolve v.tree e.key, m'.kind⟩, htold, rfl⟩
  · rw [hx] at htold
    exact .inr ⟨x, htold, hfilled⟩

section Sample

def dirPath : List UInt16 := utf16 "\\5\\2".toList

set_option maxRecDepth 20000 in
theorem dirPath_opens : Prod.fst <$> sampleVolume.openAt (fun _ => none) packedArchive dirPath =
    .ok ⟨.version 1, .dir⟩ := by
  decide +kernel

set_option maxRecDepth 20000 in
theorem dirPath_rows : (fun rows : List DirRow => rows.map DirRow.name) <$>
    sampleVolume.rowsAt (fun _ => none) packedArchive ⟨.version 1, .dir⟩ =
      .ok [".".toList, "..".toList, "a".toList, "b".toList] := by
  decide +kernel

theorem sampleVolume_lists : ∃ (p : VolumePool) (es : List Entry) (dots others : List DirRow),
    List.Forall₂ (ListedAs sampleVolume (fun _ => none) dirPath (.version 1) es p.Answered)
      es others ∧
    (dots ++ others).map DirRow.name = [".".toList, "..".toList, "a".toList, "b".toList] := by
  obtain ⟨o, ho, hc⟩ := map_eq_ok.mp dirPath_opens
  obtain ⟨rows, hrows, hnames⟩ := map_eq_ok.mp dirPath_rows
  have hopened := volumeCall_told .refl (.openPath dirPath)
  have hanswer : VolumeOp.told sampleVolume (fun _ => none) packedArchive (.openPath dirPath) =
      .ok (.opened o.1 o.2) := by
    change (sampleVolume.openAt (fun _ => none) packedArchive dirPath >>= fun o =>
      .ok (VolumeReply.opened o.1 o.2)) = _
    rw [ho]
    rfl
  rw [hanswer, hc] at hopened
  have hrun := volumeCall_run .refl (.openPath dirPath)
  have hlisted := volumeCall_told hrun (.readDirectory ⟨.version 1, .dir⟩)
  have htold : VolumeOp.told sampleVolume (fun _ => none) packedArchive
      (.readDirectory ⟨.version 1, .dir⟩) = .ok (.rows rows) := by
    change (sampleVolume.rowsAt (fun _ => none) packedArchive ⟨.version 1, .dir⟩ >>= fun rows =>
      .ok (VolumeReply.rows rows)) = _
    rw [hrows]
    rfl
  rw [htold] at hlisted
  obtain ⟨es, dots, others, -, rfl, -, hrel⟩ := listing_shows_opens (v := sampleVolume)
    packedVersions_holds packedVersions_bounded
    (volumeCall_run hrun (.readDirectory ⟨.version 1, .dir⟩))
    (List.mem_append_left _ hopened) hlisted
  exact ⟨_, es, dots, others, hrel, hnames⟩

end Sample

/-! ### The two frontends -/

/-- A read through a mount beside the same read through a volume, which alone
tells the end of the file. -/
inductive SameRead : Outcome Fuse.MountErrno Fuse.MountReply → Outcome NtStatus VolumeReply → Prop
  | data (bytes : Bytes) :
    SameRead (.ok (.data bytes)) (.ok (.data (UInt32.ofNat bytes.length) bytes))
  | finish : SameRead (.ok (.data [])) (.err .endOfFile)
  | failed (e : TreeError) : SameRead (.err (.call (Fuse.errno e))) (.err (status e))

/-- An inode of a mount and an open context of a volume show the same. -/
structure SameNode (n : ℕ) (c : Context) (info : FileInfo)
    (mounted : Fuse.MountOp → Outcome Fuse.MountErrno Fuse.MountReply → Prop)
    (answered : VolumeOp → Outcome NtStatus VolumeReply → Prop) : Prop where
  getattr : ∀ a, mounted (.call (.getattr n)) a → ∃ attr, a = .ok (.call (.attr attr)) ∧
    attr.size = info.fileSize ∧ filetime attr.mtime = info.lastWriteTime ∧
    (attr.kind = .directory ↔ c.kind = .dir) ∧ (attr.kind = .regularFile ↔ c.kind = .file) ∧
    (info.fileAttributes = FILE_ATTRIBUTE_READONLY ↔ c.kind = .file)
  read : ∀ offset size a b, mounted (.read n offset size) a →
    answered (.read c size.toNat offset) b → offset.toNat + size.toNat < 2 ^ 64 → SameRead a b

/-- Neither set of codes tells failures apart that the other does not. -/
theorem status_eq_iff (e e' : TreeError) :
    status e = status e' ↔ Fuse.errno e = Fuse.errno e' := by
  have hclass (r r' : ReadError) :
      status (.read r) = status (.read r') ↔ Fuse.errno (.read r) = Fuse.errno (.read r') := by
    cases hr : r.class <;> cases hr' : r'.class <;> simp [status, Fuse.errno, hr, hr']
  have hnotFound (r : ReadError) : status .notFound ≠ status (.read r) ∧
      Fuse.errno .notFound ≠ Fuse.errno (.read r) := by
    cases hr : r.class <;> simp [status, Fuse.errno, hr]
  have hnotDir (r : ReadError) : status .notADirectory ≠ status (.read r) ∧
      Fuse.errno .notADirectory ≠ Fuse.errno (.read r) := by
    cases hr : r.class <;> simp [status, Fuse.errno, hr]
  cases e with
  | notFound =>
    cases e' with
    | notFound => exact iff_of_true rfl rfl
    | notADirectory => exact iff_of_false (by decide) (by decide)
    | read r => exact iff_of_false (hnotFound r).1 (hnotFound r).2
  | notADirectory =>
    cases e' with
    | notFound => exact iff_of_false (by decide) (by decide)
    | notADirectory => exact iff_of_true rfl rfl
    | read r => exact iff_of_false (hnotDir r).1 (hnotDir r).2
  | read r =>
    cases e' with
    | notFound => exact iff_of_false (hnotFound r).1.symm (hnotFound r).2.symm
    | notADirectory => exact iff_of_false (hnotDir r).1.symm (hnotDir r).2.symm
    | read r' => exact hclass r r'

section Frontends
variable {t : Tree} {cacheDir : ℕ → Option Bytes} {A : Archive t.store.codec}

theorem kind_of_path {fileName : List UInt16} {key : Tree.Key} {m : Meta}
    (hpath : pathAt t cacheDir fileName = .ok key) (hm : t.metaAt cacheDir A key = .ok m) :
    m.kind ≠ .symlink := by
  obtain ⟨k, -, hkey⟩ := bind_eq_ok.mp hpath
  cases hkey
  have hdir {b : ℕ} (h : Tree.dirMeta <$> t.blobDate b = .ok m) : m.kind ≠ .symlink := by
    obtain ⟨date, -, rfl⟩ := map_eq_ok.mp h
    exact fun heq => by cases heq
  cases k with
  | root =>
    cases hm
    exact fun heq => by cases heq
  | depot d =>
    have hkey : resolve t (.depot d) = .depot d := rfl
    rw [hkey, Tree.metaAt] at hm
    cases hlatest : t.store.index.latest d with
    | none =>
      rw [hlatest] at hm
      cases hm
      exact fun heq => by cases heq
    | some b =>
      rw [hlatest] at hm
      exact hdir hm
  | byDate d =>
    cases hm
    exact fun heq => by cases heq
  | latest d =>
    cases hlatest : t.store.index.latest d with
    | none =>
      have hkey : resolve t (.latest d) = .latest d := by
        rw [resolve, hlatest]
        rfl
      rw [hkey, Tree.metaAt, hlatest] at hm
      cases hm
    | some b =>
      have hkey : resolve t (.latest d) = .version b := by
        rw [resolve, hlatest]
        rfl
      rw [hkey] at hm
      exact hdir hm
  | dateLink b => exact hdir hm
  | version b => exact hdir hm
  | node b idx =>
    obtain ⟨mf, -, hm⟩ := bind_eq_ok.mp hm
    unfold Tree.nodeMetaAt at hm
    dsimp only at hm
    split_ifs at hm
    · obtain ⟨date, -, hm⟩ := bind_eq_ok.mp hm
      cases hm
      exact fun heq => by cases heq
    · obtain ⟨found, -, hm⟩ := bind_eq_ok.mp hm
      cases found with
      | ok loc =>
        obtain ⟨date, -, hm⟩ := bind_eq_ok.mp hm
        cases hm
        exact fun heq => by cases heq
      | error e =>
        obtain ⟨date, -, hm⟩ := bind_eq_ok.mp hm
        cases hm
        exact fun heq => by cases heq

theorem place_of_meta {key : Tree.Key} {m : Meta} (hm : t.metaAt cacheDir A key = .ok m) :
    (∃ y, t.placeOf cacheDir A key = .ok y) ∨ ∃ e, t.placeOf cacheDir A key = .err e := by
  cases key with
  | node b idx =>
    obtain ⟨mf, hmf, -⟩ := bind_eq_ok.mp hm
    unfold Tree.placeOf
    dsimp only
    rw [hmf, ok_bind]
    cases mf.node idx with
    | none => exact .inr ⟨_, rfl⟩
    | some n =>
      rw [ofOption, ok_bind]
      split_ifs
      · exact .inr ⟨_, rfl⟩
      · cases t.store.fileAt cacheDir A b n.fileId with
        | none => exact .inr ⟨_, rfl⟩
        | some y => exact .inl ⟨y, rfl⟩
  | _ => exact .inr ⟨_, rfl⟩

theorem frontends_agree (h : t.store.Packed cacheDir A) (hbounded : t.store.Bounded cacheDir)
    {uid gid : UInt32} {security : Bytes} {checks : Bool} {refuses : Str → Option UInt32}
    {p p' : Fuse.MountPool} {q : VolumePool}
    (hp : Fuse.MountPath ⟨t, uid, gid⟩ ⟨Fuse.FsState.new ⟨t, uid, gid⟩ cacheDir, []⟩ p)
    (hp' : Fuse.MountPath ⟨t, uid, gid⟩ p p')
    (hq : VolumeRun ⟨t, security, checks, refuses⟩ cacheDir q) {n : ℕ} {fileName : List UInt16}
    {c : Context} {info : FileInfo} (hkey : p.state.inodes.key n = some c.key)
    (hopened : q.Answered (.openPath fileName) (.ok (.opened c info))) :
    SameNode n c info (Fuse.AnsweredSince p p') q.Answered := by
  have hserved : ∀ op a, Fuse.AnsweredSince p p' op a → op.Asks n →
      Fuse.Served ⟨t, uid, gid⟩ cacheDir A c.key op a := by
    rintro op a ⟨k, hlater, hans⟩ hop
    exact Fuse.served_of_run (f := ⟨t, uid, gid⟩) h hbounded hp hp' hkey hlater hans hop
  have htold : ∀ op a, q.Answered op a →
      a = op.told ⟨t, security, checks, refuses⟩ cacheDir A := fun op a ha =>
    told_of_run (v := ⟨t, security, checks, refuses⟩) h hbounded hq ha
  have hopen : (Volume.mk t security checks refuses).openAt cacheDir A fileName =
      .ok (c, info) := by
    obtain ⟨o, ho, heq⟩ := bind_eq_ok.mp (htold _ _ hopened).symm
    cases heq
    exact ho
  obtain ⟨hpath, m, hm, hkind, hfill⟩ := openAt_eq_ok hopen
  have hlink : m.kind ≠ .symlink := kind_of_path hpath hm
  constructor
  · intro a ha
    obtain ⟨k, rfl⟩ := hserved _ _ ha rfl
    obtain ⟨allocation, -, hfill⟩ := bind_eq_ok.mp hfill
    cases hfill
    rw [hm]
    refine ⟨_, rfl, rfl, rfl, ?_, ?_, ?_⟩
    all_goals
      rw [hkind]
      dsimp only [Fuse.Frontend.attr, attributes]
      cases hcases : m.kind with
      | dir => decide
      | file => decide
      | symlink => exact absurd hcases hlink
  · intro offset size a b ha hb hsum
    have hmount := hserved _ _ ha rfl hsum
    have hvolume := htold _ _ hb
    rw [VolumeOp.told, Volume.readAt] at hvolume
    rcases place_of_meta hm with ⟨y, hy⟩ | ⟨e, he⟩
    · rw [hy] at hmount hvolume
      rw [hmount, hvolume]
      change SameRead (.ok (.data (slice y.2.2.content offset.toNat
        (offset.toNat + size.toNat)))) ((if y.2.2.content.length ≤ offset.toNat then
          .err .endOfFile else .ok _ : Outcome NtStatus (UInt32 × Bytes)) >>= fun x =>
            .ok (.data x.1 x.2))
      split_ifs with hend
      · have hnil : slice y.2.2.content offset.toNat (offset.toNat + size.toNat) = [] := by
          rw [← List.length_eq_zero_iff, slice_length]
          omega
        rw [hnil]
        exact .finish
      · exact .data _
    · rw [he] at hmount hvolume
      rw [hmount, hvolume]
      exact .failed e

end Frontends

theorem sample_frontends_agree : ∃ (p : Fuse.MountPool) (q : VolumePool) (info : FileInfo),
    SameNode 4 ⟨.node 1 1, .file⟩ info (Fuse.AnsweredSince Fuse.fileLooked p) q.Answered ∧
    Fuse.AnsweredSince Fuse.fileLooked p (.read 4 1 5) (.ok (.data [2, 3, 4])) := by
  obtain ⟨info, hopened⟩ := fileOpen_opened
  obtain ⟨y, hy, hcontent⟩ := map_eq_ok.mp Fuse.mounted_place
  have hpath : Fuse.MountPath Fuse.mounted Fuse.fileLooked
      (Fuse.mountCall (.read 4 1 5) Fuse.fileLooked) := Fuse.mountCall_path .refl _
  have hsame := frontends_agree (t := ⟨packedVersions.dump⟩) packedVersions_holds
    packedVersions_bounded Fuse.fileLooked_path hpath fileOpen_run Fuse.fileLooked_key hopened
  obtain ⟨a, ha⟩ := Fuse.answered_mountCall (.read 4 1 5) Fuse.fileLooked
  obtain ⟨k, hlater, hans⟩ := ha
  have hread := Fuse.served_of_run (f := Fuse.mounted) packedVersions_holds packedVersions_bounded
    Fuse.fileLooked_path hpath Fuse.fileLooked_key hlater hans rfl (by decide)
  have hdata : a = .ok (.data [2, 3, 4]) := by
    rw [hread, hy]
    change Outcome.ok (Fuse.MountReply.data (slice y.2.2.content 1 6)) = _
    rw [show y.2.2.content = [1, 2, 3, 4] from congrArg Prod.snd hcontent]
    rfl
  subst hdata
  exact ⟨_, _, info, hsame, k, hlater, hans⟩

end Steam2Fs.WinFs
