import Steam2Fs.Backend
import Steam2Fs.DateParse
import Steam2Fs.IndexOrder
import Steam2Fs.Lib.Shell

/-!
# Listing a directory

A local directory is read with `read_dir`, a remote one with `find` in a shell
of the host, or, where that fails, with as many `readdir` requests as it takes.
The host answers a command with messages of a channel: pieces of its output cut
anywhere, an exit status on either side of their end, and others.

`find` prints one line for each name. What comes back is what was printed
exactly when no name has a line feed in it or a carriage return at its end; for
such names all three ways lead to indexes that agree.
-/

namespace Steam2Fs
open Text

structure Metadata where
  len : UInt64
  isDir : Bool
  isSymlink : Bool

/-- One name of a directory, with what `lstat` and `stat` say of it; they
differ only for a link. -/
structure Child where
  name : Bytes
  lstat : Metadata
  stat : Except String Metadata
  stat_eq : lstat.isSymlink = false → stat = .ok lstat

namespace Child

/-- What the name leads to, or the link itself where it leads nowhere. -/
def target (c : Child) : Metadata :=
  match c.stat with
  | .ok m => m
  | .error _ => c.lstat

def entryWith (c : Child) (m : Metadata) : DirEntry := ⟨fromUtf8Lossy c.name, m.len, m.isDir⟩

def entry (c : Child) : DirEntry := c.entryWith c.target

theorem entry_of_stat {c : Child} {m : Metadata} (h : c.stat = .ok m) :
    c.entry = c.entryWith m := by
  unfold entry target
  rw [h]

theorem entry_of_file {c : Child} (h : c.lstat.isSymlink = false) : c.entry = c.entryWith c.lstat :=
  entry_of_stat (c.stat_eq h)

end Child

namespace LocalBackend

/-- One round of `list_dir`; only a link needs a second look. -/
def listOne (c : Child) : Except String DirEntry :=
  if c.lstat.isSymlink then c.stat.map c.entryWith else .ok (c.entryWith c.lstat)

/-- The entries of `read_dir`, up to the first failure. -/
def listEntries : List (Except String Child) → Except String (List DirEntry)
  | [] => .ok []
  | .error e :: _ => .error e
  | .ok c :: cs => do
    let entry ← listOne c
    let rest ← listEntries cs
    .ok (entry :: rest)

def listDir (dir : Str) (readDir : Except String (List (Except String Child))) :
    Except AnyhowError (List DirEntry) :=
  match readDir with
  | .error e => .error (.context ("listing " ++ String.ofList dir) (.msg e))
  | .ok cs => match listEntries cs with
    | .error e => .error (.msg e)
    | .ok out => .ok out

theorem listOne_eq (c : Child) : listOne c = c.stat.map c.entryWith := by
  unfold listOne
  split_ifs with hlink
  · rfl
  · rw [c.stat_eq (Bool.eq_false_of_not_eq_true hlink)]
    rfl

theorem listEntries_cons (c : Child) (cs : List Child) :
    listEntries ((c :: cs).map .ok) =
      (c.stat.map c.entryWith).bind fun e => (listEntries (cs.map .ok)).map (e :: ·) := by
  rw [List.map_cons, listEntries, listOne_eq]
  cases c.stat with
  | error e => rfl
  | ok m =>
    cases listEntries (cs.map .ok) with
    | error e => rfl
    | ok out => rfl

theorem listEntries_ok_iff {cs : List Child} {out : List DirEntry} :
    listEntries (cs.map .ok) = .ok out ↔
      out = cs.map Child.entry ∧ ∀ c ∈ cs, ∃ m, c.stat = .ok m := by
  induction cs generalizing out with
  | nil => simp [listEntries, eq_comm]
  | cons c cs ih =>
    rw [listEntries_cons, List.forall_mem_cons, List.map_cons]
    cases hstat : c.stat with
    | error e => simp [Except.map, Except.bind]
    | ok m =>
      rw [Child.entry_of_stat hstat]
      cases hrest : listEntries (cs.map .ok) with
      | error e =>
        have hnever : ¬ ∀ c ∈ cs, ∃ m, c.stat = .ok m := by
          intro h
          have hok := (@ih (cs.map Child.entry)).mpr ⟨rfl, h⟩
          rw [hrest] at hok
          cases hok
        simp [Except.map, Except.bind, hnever]
      | ok rest =>
        obtain ⟨rfl, hstats⟩ := ih.mp hrest
        simp only [Except.map, Except.bind, Except.ok.injEq, exists_eq', true_and]
        exact ⟨fun h => ⟨h.symm, hstats⟩, fun h => h.1.symm⟩

theorem listDir_ok_iff {dir : Str} {cs : List Child} {out : List DirEntry} :
    listDir dir (.ok (cs.map .ok)) = .ok out ↔
      out = cs.map Child.entry ∧ ∀ c ∈ cs, ∃ m, c.stat = .ok m := by
  rw [← listEntries_ok_iff]
  unfold listDir
  dsimp only
  cases listEntries (cs.map .ok) with
  | error e => simp
  | ok out' => simp

end LocalBackend

namespace Sftp

inductive ChannelMsg where
  | data (bytes : Bytes)
  | exitStatus (status : UInt32)
  | other

structure NamedFile where
  filename : Str
  size : Option UInt64
  isDir : Bool

/-- What a connection to the host answers: to a command, to `opendir`, and to
the `n`-th `readdir` of a handle. -/
structure Host where
  exec : Str → Except String (List ChannelMsg)
  opendir : Str → Except String Str
  readdir : Str → ℕ → Except SftpError (List NamedFile)

def path (root rel : Str) : Str :=
  if rel = [] then if root = [] then ".".toList else root
  else if root = [] then rel
  else root ++ '/' :: rel

/-! ### `find` -/

def findCommand (path : Str) : Str :=
  "find -L ".toList ++ Shell.quote path ++
    " -mindepth 1 -maxdepth 1 -printf '%y\\t%s\\t%f\\n'".toList

/-- The output of the command and its exit status, once the channel is closed. -/
def gather : List ChannelMsg → Bytes × Option UInt32 → Bytes × Option UInt32
  | [], got => got
  | .data bytes :: msgs, got => gather msgs (got.1 ++ bytes, got.2)
  | .exitStatus status :: msgs, got => gather msgs (got.1, some status)
  | .other :: msgs, got => gather msgs got

def parseLine (line : Str) : Option DirEntry := do
  let (ty, rest) ← splitOnce '\t' line
  let (size, name) ← splitOnce '\t' rest
  some ⟨name, UInt64.ofNat ((fromStrRadix 10 (2 ^ 64) size).getD 0), ty = ['d']⟩

def parseListing (stdout : Bytes) : List DirEntry :=
  (lines (fromUtf8Lossy stdout)).filterMap parseLine

def statusText : Option UInt32 → String
  | none => "None"
  | some status => "Some(" ++ String.ofList (decimal status.toNat) ++ ")"

def listDirViaFind (host : Host) (path : Str) : Except AnyhowError (List DirEntry) :=
  match host.exec (findCommand path) with
  | .error e => .error (.msg e)
  | .ok msgs =>
    let (stdout, status) := gather msgs ([], none)
    if status ≠ some 0 then .error (.msg ("remote find exited with " ++ statusText status))
    else .ok (parseListing stdout)

/-! ### `readdir` -/

def NamedFile.entry (f : NamedFile) : DirEntry := ⟨f.filename, f.size.getD 0, f.isDir⟩

def NamedFile.isDots (f : NamedFile) : Bool := f.filename = ['.'] || f.filename = ['.', '.']

/-- The loop of `list_dir_via_sftp`, stopped with `none` when it is still going
after the given number of requests. -/
def readdirLoop (path : Str) (readdir : ℕ → Except SftpError (List NamedFile)) :
    ℕ → ℕ → List DirEntry → Option (Except AnyhowError (List DirEntry))
  | 0, _, _ => none
  | fuel + 1, n, out =>
    match readdir n with
    | .ok files =>
      readdirLoop path readdir fuel (n + 1)
        (out ++ (files.filter fun f => !f.isDots).map NamedFile.entry)
    | .error .eof => some (.ok out)
    | .error (.other e) =>
      some (.error (.msg ("sftp readdir " ++ String.ofList path ++ ": " ++ e)))

def listDirViaSftp (host : Host) (fuel : ℕ) (path : Str) :
    Option (Except AnyhowError (List DirEntry)) :=
  match host.opendir path with
  | .error e => some (.error (.context ("sftp opendir " ++ String.ofList path) (.msg e)))
  | .ok dir => readdirLoop path (host.readdir dir) fuel 0 []

def listDir (host : Host) (fuel : ℕ) (root rel : Str) :
    Option (Except AnyhowError (List DirEntry)) :=
  match listDirViaFind host (path root rel) with
  | .ok v => some (.ok v)
  | .error _ => listDirViaSftp host fuel (path root rel)

/-! ### The command that runs -/

def findWords (path : Str) : List Str :=
  ["find".toList, "-L".toList, path, "-mindepth".toList, "1".toList, "-maxdepth".toList,
    "1".toList, "-printf".toList, "%y\\t%s\\t%f\\n".toList]

/-- Whatever is in the path, the shell hands it to `find` as it is. -/
theorem words_findCommand (path : Str) :
    Shell.words (findCommand path) = some (findWords path) := by
  have hplain {s : Str} (h : (s.all Shell.isPlain && !s.isEmpty) = true) : Shell.Renders s s := by
    simp only [Bool.and_eq_true, List.all_eq_true, Bool.not_eq_true',
      List.isEmpty_eq_false_iff] at h
    exact Shell.renders_plain h.1 h.2
  have hblanks (a b c rest : Str) :
      a ++ ' ' :: b ++ [' '] ++ c ++ rest = a ++ (' ' :: b ++ (' ' :: c ++ rest)) := by
    simp
  have hhead : "find -L ".toList = "find".toList ++ ' ' :: "-L".toList ++ [' '] := by
    decide +kernel
  have htail : " -mindepth 1 -maxdepth 1 -printf '%y\\t%s\\t%f\\n'".toList =
      Shell.spaced ["-mindepth".toList, "1".toList, "-maxdepth".toList, "1".toList,
        "-printf".toList, Shell.quote "%y\\t%s\\t%f\\n".toList] := by
    decide +kernel
  have htexts : findCommand path = "find".toList ++ Shell.spaced
      ("-L".toList :: Shell.quote path :: ["-mindepth".toList, "1".toList, "-maxdepth".toList,
        "1".toList, "-printf".toList, Shell.quote "%y\\t%s\\t%f\\n".toList]) := by
    unfold findCommand
    rw [hhead, htail, Shell.spaced_cons, Shell.spaced_cons]
    exact hblanks _ _ _ _
  have hfind : Shell.Renders "find".toList "find".toList := hplain (by decide +kernel)
  have hfollow : Shell.Renders "-L".toList "-L".toList := hplain (by decide +kernel)
  have hmin : Shell.Renders "-mindepth".toList "-mindepth".toList := hplain (by decide +kernel)
  have hmax : Shell.Renders "-maxdepth".toList "-maxdepth".toList := hplain (by decide +kernel)
  have hone : Shell.Renders "1".toList "1".toList := hplain (by decide +kernel)
  have hprintf : Shell.Renders "-printf".toList "-printf".toList := hplain (by decide +kernel)
  rw [htexts]
  exact Shell.words_of_renders hfind (.cons hfollow (.cons (Shell.renders_quote path)
    (.cons hmin (.cons hone (.cons hmax (.cons hone (.cons hprintf
      (.cons (Shell.renders_quote _) .nil))))))))

/-! ### What comes back -/

/-- What `find` prints for a name: its kind, its size and the name. -/
def Prints (c : Child) (out : Bytes) : Prop :=
  ∃ kind : Char, (kind.toNat < 0x80 ∧ kind ≠ '\t' ∧ kind ≠ '\n') ∧
    (kind = 'd' ↔ c.target.isDir = true) ∧
    out = utf8 (kind :: '\t' :: decimal c.target.len.toNat) ++ 9 :: (c.name ++ [10])

/-- The name is on one line, and all of it. -/
def Plain (name : Str) : Prop := '\n' ∉ name ∧ name.getLast? ≠ some '\r'

theorem decimal_ascii (n : ℕ) {c : Char} (hc : c ∈ decimal n) :
    c.toNat < 0x80 ∧ c ≠ '\t' ∧ c ≠ '\n' := by
  obtain ⟨k, hk, rfl⟩ := digit_of_mem_toDigits (by decide) hc
  interval_cases k <;> decide

/-- A line of the output, if the name `s` does not end where it should. -/
theorem parseLine_print {kind : Char} (hkind : kind ≠ '\t') (len : UInt64) (s : Str) :
    parseLine (kind :: '\t' :: decimal len.toNat ++ '\t' :: s) =
      some ⟨s, len, kind = 'd'⟩ := by
  have hfirst : splitOnce '\t' (kind :: '\t' :: decimal len.toNat ++ '\t' :: s) =
      some ([kind], decimal len.toNat ++ '\t' :: s) :=
    splitOnce_append (fun h => hkind (List.mem_singleton.mp h).symm) _
  have hsecond : splitOnce '\t' (decimal len.toNat ++ '\t' :: s) = some (decimal len.toNat, s) :=
    splitOnce_append (fun h => (decimal_ascii _ h).2.1 rfl) _
  have hlen : fromStrRadix 10 (2 ^ 64) (decimal len.toNat) = some len.toNat :=
    fromStrRadix_toDigits (by decide) (by decide) len.toNat_lt
  unfold parseLine
  rw [hfirst]
  simp only [Option.bind_eq_bind, Option.bind_some]
  rw [hsecond]
  simp only [Option.bind_some, hlen, Option.getD_some, UInt64.ofNat_toNat, List.cons.injEq,
    and_true]

theorem strip_eq (s : Str) : (stripSuffix ['\r'] s).getD s =
    if s.getLast? = some '\r' then s.dropLast else s := by
  split_ifs with hlast
  · obtain ⟨t, rfl⟩ := List.getLast?_eq_some_iff.mp hlast
    rw [stripSuffix_eq_some_iff.mpr rfl, Option.getD_some, List.dropLast_concat]
  · have hnone : stripSuffix ['\r'] s = none := by
      by_contra hne
      obtain ⟨u, hu⟩ := Option.ne_none_iff_exists'.mp hne
      rw [stripSuffix_eq_some_iff] at hu
      exact hlast (by rw [hu, List.getLast?_concat])
    rw [hnone, Option.getD_none]

theorem strip_append_tab (a s : Str) :
    (stripSuffix ['\r'] (a ++ '\t' :: s)).getD (a ++ '\t' :: s) =
      a ++ '\t' :: (stripSuffix ['\r'] s).getD s := by
  rw [strip_eq, strip_eq]
  cases s with
  | nil => simp
  | cons b bs =>
    have hlast : (a ++ '\t' :: b :: bs).getLast? = (b :: bs).getLast? := by
      rw [List.getLast?_append, List.getLast?_cons_cons, List.getLast?_cons]
      rfl
    rw [hlast]
    split_ifs
    · rw [List.dropLast_append_of_ne_nil (by simp), List.dropLast_cons_of_ne_nil (by simp)]
    · rfl

theorem strip_eq_self_iff {s : Str} :
    (stripSuffix ['\r'] s).getD s = s ↔ s.getLast? ≠ some '\r' := by
  rw [strip_eq]
  split_ifs with hlast
  · constructor
    · intro h
      obtain ⟨t, rfl⟩ := List.getLast?_eq_some_iff.mp hlast
      have hlen := congrArg List.length h
      simp at hlen
    · intro h
      exact absurd hlast h
  · exact ⟨fun _ => hlast, fun _ => rfl⟩

theorem strip_length_le (s : Str) : ((stripSuffix ['\r'] s).getD s).length ≤ s.length := by
  rw [strip_eq]
  split_ifs
  · rw [List.length_dropLast]
    omega
  · exact le_rfl

/-- The first line the output starts with is the name's own; it gives the
name back exactly if that is plain, and then takes nothing else with it. -/
theorem parseListing_print {c : Child} {out : Bytes} (h : Prints c out) (rest : Bytes) :
    ∃ e more, parseListing (out ++ rest) = e :: more ∧
      (e = c.entry ↔ Plain (fromUtf8Lossy c.name)) ∧
      (Plain (fromUtf8Lossy c.name) → more = parseListing rest) := by
  obtain ⟨kind, ⟨hascii, htab, hfeed⟩, hdir, hout⟩ := h
  obtain ⟨front, hfront⟩ : ∃ front, front = kind :: '\t' :: decimal c.target.len.toNat := ⟨_, rfl⟩
  have hfront_ascii : ∀ d ∈ front, d.toNat < 0x80 ∧ d ≠ '\n' := by
    intro d hd
    rw [hfront] at hd
    rcases List.mem_cons.mp hd with rfl | hd
    · exact ⟨hascii, hfeed⟩
    rcases List.mem_cons.mp hd with rfl | hd
    · decide
    · exact ⟨(decimal_ascii _ hd).1, (decimal_ascii _ hd).2.2⟩
  have htext : fromUtf8Lossy (out ++ rest) =
      front ++ '\t' :: (fromUtf8Lossy c.name ++ '\n' :: fromUtf8Lossy rest) := by
    have hassoc : out ++ rest = utf8 front ++ 9 :: (c.name ++ 10 :: rest) := by
      rw [hout, ← hfront]
      simp
    rw [hassoc, fromUtf8Lossy_append (by decide), fromUtf8Lossy_append (by decide),
      fromUtf8Lossy_utf8 fun d hd => (hfront_ascii d hd).1]
    rfl
  -- Up to the first line feed, which may be one inside the name.
  have hline : ∀ s t : Str, '\n' ∉ s →
      fromUtf8Lossy c.name ++ '\n' :: fromUtf8Lossy rest = s ++ '\n' :: t →
      parseListing (out ++ rest) =
        ⟨(stripSuffix ['\r'] s).getD s, c.target.len, kind = 'd'⟩ ::
          (lines t).filterMap parseLine := by
    intro s t hs heq
    have hnl : '\n' ∉ front ++ '\t' :: s := by
      intro hmem
      rcases List.mem_append.mp hmem with hmem | hmem
      · exact (hfront_ascii _ hmem).2 rfl
      rcases List.mem_cons.mp hmem with hmem | hmem
      · exact absurd hmem (by decide)
      · exact hs hmem
    have hassoc : front ++ '\t' :: (s ++ '\n' :: t) = (front ++ '\t' :: s) ++ '\n' :: t := by
      simp
    have hparse := parseLine_print htab c.target.len ((stripSuffix ['\r'] s).getD s)
    rw [← hfront] at hparse
    rw [parseListing, htext, heq, hassoc, lines_append hnl, strip_append_tab,
      List.filterMap_cons_some hparse]
  have hkind : decide (kind = 'd') = c.target.isDir := by
    rw [Bool.eq_iff_iff, decide_eq_true_iff]
    exact hdir
  have hentry : ∀ s : Str, (⟨s, c.target.len, kind = 'd'⟩ : DirEntry) = c.entry ↔
      s = fromUtf8Lossy c.name := by
    intro s
    rw [hkind, Child.entry, Child.entryWith, DirEntry.mk.injEq]
    simp
  by_cases hnl : '\n' ∈ fromUtf8Lossy c.name
  · obtain ⟨s, t, ht, hs⟩ := List.eq_append_cons_of_mem hnl
    have hplain : ¬ Plain (fromUtf8Lossy c.name) := fun h => h.1 hnl
    refine ⟨_, _, hline s (t ++ '\n' :: fromUtf8Lossy rest) hs (by rw [ht]; simp), ?_,
      fun h => absurd h hplain⟩
    rw [hentry]
    refine ⟨fun heq => ?_, fun h => absurd h hplain⟩
    have hle := strip_length_le s
    rw [heq, ht, List.length_append, List.length_cons] at hle
    omega
  · refine ⟨_, _, hline _ _ hnl rfl, ?_, fun _ => rfl⟩
    rw [hentry, strip_eq_self_iff]
    exact ⟨fun h => ⟨hnl, h⟩, fun h => h.2⟩

/-- The listing is what was printed exactly when every name is plain. -/
theorem parseListing_iff {cs : List Child} {outs : List Bytes} (h : List.Forall₂ Prints cs outs) :
    parseListing outs.flatten = cs.map Child.entry ↔
      ∀ c ∈ cs, Plain (fromUtf8Lossy c.name) := by
  induction h with
  | nil =>
    refine ⟨fun _ c hc => ?_, fun _ => rfl⟩
    cases hc
  | @cons c out cs outs hc _ ih =>
    obtain ⟨e, more, hparse, hentry, hmore⟩ := parseListing_print hc outs.flatten
    rw [List.flatten_cons, hparse, List.map_cons, List.cons.injEq, hentry, List.forall_mem_cons]
    refine and_congr_right fun hplain => ?_
    rw [hmore hplain]
    exact ih

/-! ### `find` -/

def dataOf : List ChannelMsg → Bytes
  | [] => []
  | .data bytes :: msgs => bytes ++ dataOf msgs
  | .exitStatus _ :: msgs => dataOf msgs
  | .other :: msgs => dataOf msgs

def lastStatus (status : Option UInt32) : List ChannelMsg → Option UInt32
  | [] => status
  | .data _ :: msgs => lastStatus status msgs
  | .exitStatus status :: msgs => lastStatus (some status) msgs
  | .other :: msgs => lastStatus status msgs

theorem gather_eq (msgs : List ChannelMsg) (stdout : Bytes) (status : Option UInt32) :
    gather msgs (stdout, status) = (stdout ++ dataOf msgs, lastStatus status msgs) := by
  induction msgs generalizing stdout status with
  | nil => rw [dataOf, List.append_nil, gather, lastStatus]
  | cons msg msgs ih =>
    cases msg with
    | data bytes => rw [gather, ih, dataOf, lastStatus, List.append_assoc]
    | exitStatus s => rw [gather, ih, dataOf, lastStatus]
    | other => rw [gather, ih, dataOf, lastStatus]

/-- The shell of the host runs `find` on the directory with these names in it,
and nothing goes wrong. -/
def Finds (host : Host) (path : Str) (cs : List Child) : Prop :=
  ∀ command, Shell.words command = some (findWords path) →
    ∃ msgs outs, host.exec command = .ok msgs ∧ List.Forall₂ Prints cs outs ∧
      dataOf msgs = outs.flatten ∧ lastStatus none msgs = some 0

theorem Finds.listing {host : Host} {path : Str} {cs : List Child} (h : Finds host path cs) :
    ∃ outs, List.Forall₂ Prints cs outs ∧
      listDirViaFind host path = .ok (parseListing outs.flatten) := by
  obtain ⟨msgs, outs, hexec, houts, hdata, hstatus⟩ := h _ (words_findCommand path)
  refine ⟨outs, houts, ?_⟩
  unfold listDirViaFind
  rw [hexec]
  dsimp only
  rw [gather_eq, hstatus, hdata, List.nil_append, if_neg (not_not_intro rfl)]

theorem listDirViaFind_exact {host : Host} {path : Str} {cs : List Child}
    (h : Finds host path cs) :
    listDirViaFind host path = .ok (cs.map Child.entry) ↔
      ∀ c ∈ cs, Plain (fromUtf8Lossy c.name) := by
  obtain ⟨outs, houts, hlisting⟩ := h.listing
  rw [hlisting, ← parseListing_iff houts, Except.ok.injEq]

/-! ### `readdir` -/

/-- The host delivers these files, in batches, to the `n`-th request and those
after it, and then the end. -/
def Delivers (readdir : ℕ → Except SftpError (List NamedFile)) : ℕ → List (List NamedFile) → Prop
  | n, [] => readdir n = .error .eof
  | n, files :: batches => readdir n = .ok files ∧ Delivers readdir (n + 1) batches

theorem readdirLoop_delivers {readdir : ℕ → Except SftpError (List NamedFile)} {n : ℕ}
    {batches : List (List NamedFile)} (h : Delivers readdir n batches) (path : Str) {fuel : ℕ}
    (hfuel : batches.length < fuel) (out : List DirEntry) :
    readdirLoop path readdir fuel n out =
      some (.ok (out ++ (batches.flatten.filter fun f => !f.isDots).map NamedFile.entry)) := by
  obtain ⟨fuel, rfl⟩ : ∃ k, fuel = k + 1 := Nat.exists_eq_succ_of_ne_zero (Nat.ne_zero_of_lt hfuel)
  induction batches generalizing n fuel out with
  | nil =>
    unfold Delivers at h
    simp only [readdirLoop, h]
    simp
  | cons files batches ih =>
    obtain ⟨hfiles, hrest⟩ := h
    simp only [readdirLoop, hfiles]
    rw [List.length_cons] at hfuel
    obtain ⟨fuel, rfl⟩ : ∃ k, fuel = k + 1 :=
      Nat.exists_eq_succ_of_ne_zero (Nat.ne_zero_of_lt (Nat.lt_of_succ_lt_succ hfuel))
    rw [ih hrest _ _ (Nat.lt_of_succ_lt_succ hfuel), List.flatten_cons, List.filter_append,
      List.map_append, List.append_assoc]

/-- What the server says of a name; it does not follow links. -/
def Names (c : Child) (f : NamedFile) : Prop :=
  f.filename = fromUtf8Lossy c.name ∧ f.size = some c.lstat.len ∧ f.isDir = c.lstat.isDir

def Enumerates (host : Host) (path : Str) (cs : List Child) : Prop :=
  ∃ dir batches files, host.opendir path = .ok dir ∧ Delivers (host.readdir dir) 0 batches ∧
    List.Forall₂ Names cs files ∧ files = batches.flatten.filter fun f => !f.isDots

theorem Enumerates.listing {host : Host} {path : Str} {cs : List Child}
    (h : Enumerates host path cs) :
    ∃ enough, ∀ fuel, enough ≤ fuel →
      listDirViaSftp host fuel path = some (.ok (cs.map fun c => c.entryWith c.lstat)) := by
  obtain ⟨dir, batches, files, hopen, hdelivers, hnames, hfiles⟩ := h
  have hentries : files.map NamedFile.entry = cs.map fun c => c.entryWith c.lstat := by
    clear hfiles
    induction hnames with
    | nil => rfl
    | cons hf _ ih =>
      obtain ⟨hname, hsize, hdir⟩ := hf
      rw [List.map_cons, List.map_cons, ih, NamedFile.entry, hname, hsize, hdir]
      rfl
  refine ⟨batches.length + 1, fun fuel hfuel => ?_⟩
  unfold listDirViaSftp
  rw [hopen]
  dsimp only
  rw [readdirLoop_delivers hdelivers path hfuel, ← hfiles, hentries, List.nil_append]

/-! ### Whichever way it goes -/

/-- The host has a directory with these names. Its `find` may fail; if it does
not it sees all of them, and so does `readdir`, in any order each. -/
structure HasDir (host : Host) (path : Str) (cs : List Child) : Prop where
  find : (∃ e, listDirViaFind host path = .error e) ∨ ∃ found, found.Perm cs ∧ Finds host path found
  readdir : ∃ listed, listed.Perm cs ∧ Enumerates host path listed

theorem HasDir.listing {host : Host} {root rel : Str} {cs : List Child}
    (h : HasDir host (path root rel) cs) (hplain : ∀ c ∈ cs, Plain (fromUtf8Lossy c.name))
    (hfiles : ∀ c ∈ cs, c.lstat.isSymlink = false) :
    ∃ enough, ∀ fuel, enough ≤ fuel →
      ∃ out, listDir host fuel root rel = some (.ok out) ∧ out.Perm (cs.map Child.entry) := by
  rcases h.find with ⟨e, herr⟩ | ⟨found, hfound, hfinds⟩
  · obtain ⟨listed, hlisted, henumerates⟩ := h.readdir
    obtain ⟨enough, hlisting⟩ := henumerates.listing
    refine ⟨enough, fun fuel hfuel => ⟨_, ?_, hlisted.map Child.entry⟩⟩
    have hentries : (listed.map fun c => c.entryWith c.lstat) = listed.map Child.entry :=
      List.map_congr_left fun c hc => (Child.entry_of_file (hfiles c (hlisted.mem_iff.mp hc))).symm
    unfold listDir
    rw [herr]
    dsimp only
    rw [hlisting fuel hfuel, hentries]
  · have hfind := (listDirViaFind_exact hfinds).mpr fun c hc => hplain c (hfound.mem_iff.mp hc)
    refine ⟨0, fun fuel _ => ⟨_, ?_, hfound.map Child.entry⟩⟩
    unfold listDir
    rw [hfind]

end Sftp

/-! ### The index of a dump -/

namespace Index

def listed (dir : String) : Except AnyhowError (List DirEntry) → Outcome AnyhowError (List DirEntry)
  | .ok es => .ok es
  | .error e => .err (.context ("listing " ++ dir ++ "/") e)

def readBlobDates : Except AnyhowError Bytes → Outcome AnyhowError (List (Str × Instant))
  | .error _ => .ok []
  | .ok bytes => match readDates bytes with
    | .ok m => .ok m
    | .err () => .ok []
    | .panic => .panic

/-- `Index::load` of a backend, which reads one file and lists two directories. -/
def loadFrom (readAll : Str → Except AnyhowError Bytes)
    (listDir : Str → Except AnyhowError (List DirEntry)) : Outcome AnyhowError Index := do
  let dates ← readBlobDates (readAll "blobs_dates.txt".toList)
  let blobs ← listed "blobs" (listDir "blobs".toList)
  let dats ← listed "dats" (listDir "dats".toList)
  .ok (load (fun name => List.lookup name dates) blobs dats)

theorem listed_eq_ok {dir : String} {r : Except AnyhowError (List DirEntry)} {es : List DirEntry} :
    listed dir r = .ok es ↔ r = .ok es := by
  cases r with
  | ok out => simp [listed]
  | error e => simp [listed]

theorem loadFrom_eq_ok {readAll : Str → Except AnyhowError Bytes}
    {listDir : Str → Except AnyhowError (List DirEntry)} {i : Index} :
    loadFrom readAll listDir = .ok i ↔
      ∃ dates blobs dats, readBlobDates (readAll "blobs_dates.txt".toList) = .ok dates ∧
        listDir "blobs".toList = .ok blobs ∧ listDir "dats".toList = .ok dats ∧
        i = load (fun name => List.lookup name dates) blobs dats := by
  unfold loadFrom
  constructor
  · intro h
    obtain ⟨dates, hdates, h⟩ := Outcome.bind_eq_ok.mp h
    obtain ⟨blobs, hblobs, h⟩ := Outcome.bind_eq_ok.mp h
    obtain ⟨dats, hdats, h⟩ := Outcome.bind_eq_ok.mp h
    exact ⟨dates, blobs, dats, hdates, listed_eq_ok.mp hblobs, listed_eq_ok.mp hdats,
      (Outcome.ok.inj h).symm⟩
  · rintro ⟨dates, blobs, dats, hdates, hblobs, hdats, rfl⟩
    rw [hdates, listed_eq_ok.mpr hblobs, listed_eq_ok.mpr hdats]
    rfl

def dumpDirs : List Str := ["blobs".toList, "dats".toList]

/-- The directories below `root`, each with the names in it, read locally. -/
def localDirs (root : Str) (dirs : Str → List Child) (rel : Str) :
    Except AnyhowError (List DirEntry) :=
  LocalBackend.listDir (Sftp.path root rel) (.ok ((dirs rel).map .ok))

/-- A dump is the same through a mounted directory and over a connection,
whether `find` runs on the host or not and in whatever order the names come. -/
theorem loadFrom_remote {host : Sftp.Host} {root : Str} {readAll : Str → Except AnyhowError Bytes}
    {dirs : Str → List Child}
    (hhost : ∀ rel ∈ dumpDirs, Sftp.HasDir host (Sftp.path root rel) (dirs rel))
    (hnames : ∀ rel ∈ dumpDirs, ∀ c ∈ dirs rel,
      Sftp.Plain (fromUtf8Lossy c.name) ∧ c.lstat.isSymlink = false)
    {i : Index} (hi : loadFrom readAll (localDirs root dirs) = .ok i)
    (hblobs : (i.blobs.map BlobEntry.key).Nodup)
    (hdats : (i.dats.map fun e => (e.key, e.incomplete)).Nodup) :
    ∃ enough, ∀ fuel, enough ≤ fuel → ∃ remoteDir j,
      (∀ rel ∈ dumpDirs, Sftp.listDir host fuel root rel = some (remoteDir rel)) ∧
      loadFrom readAll remoteDir = .ok j ∧ Agree i j := by
  obtain ⟨dates, es, es', hdates, hes, hes', rfl⟩ := loadFrom_eq_ok.mp hi
  obtain ⟨rfl, -⟩ := LocalBackend.listDir_ok_iff.mp hes
  obtain ⟨rfl, -⟩ := LocalBackend.listDir_ok_iff.mp hes'
  have hremote : ∀ rel ∈ dumpDirs, ∃ enough, ∀ fuel, enough ≤ fuel → ∃ out,
      Sftp.listDir host fuel root rel = some (.ok out) ∧ out.Perm ((dirs rel).map Child.entry) :=
    fun rel hrel => (hhost rel hrel).listing (fun c hc => (hnames rel hrel c hc).1)
      fun c hc => (hnames rel hrel c hc).2
  obtain ⟨enough, hblob⟩ := hremote "blobs".toList (by decide +kernel)
  obtain ⟨enough', hdat⟩ := hremote "dats".toList (by decide +kernel)
  refine ⟨max enough enough', fun fuel hfuel => ?_⟩
  obtain ⟨out, hout, hperm⟩ := hblob fuel (le_trans (le_max_left _ _) hfuel)
  obtain ⟨out', hout', hperm'⟩ := hdat fuel (le_trans (le_max_right _ _) hfuel)
  have hne : "dats".toList ≠ "blobs".toList := by decide +kernel
  refine ⟨fun rel => .ok (if rel = "blobs".toList then out else out'), _, ?_,
    loadFrom_eq_ok.mpr ⟨dates, out, out', hdates, by rw [if_pos rfl], by rw [if_neg hne], rfl⟩, ?_⟩
  · intro rel hrel
    rcases List.mem_cons.mp hrel with rfl | hrel
    · rw [hout]
      exact congrArg (fun es => some (Except.ok es)) (if_pos rfl).symm
    · rw [List.mem_singleton.mp hrel, hout']
      exact congrArg (fun es => some (Except.ok es)) (if_neg hne).symm
  · apply (load_loaded _ _ _).agree (load_loaded _ _ _) _ _ hblobs hdats
    · rw [(load_blobs _ _).1, (load_blobs _ _).1]
      exact hperm.symm.filterMap _
    · rw [(load_dats _ _).1, (load_dats _ _).1]
      exact hperm'.symm.filterMap _

def file (name : String) (len : UInt64) : Child :=
  ⟨utf8 name.toList, ⟨len, false, false⟩, .ok ⟨len, false, false⟩, fun _ => rfl⟩

def sampleFiles (rel : Str) : List Child :=
  if rel = "blobs".toList then [file "5_1_000000aa_x.blob" 3, file "5_1_000000ab_y.blob" 4]
  else [file "5_1_000000aa_x.dat" 3, file "5_1_000000aa_x.dat.!qB" 2]

/-- Its shell runs `find` on the blobs, cuts what it prints in the middle of a
name and reports the exit before the end; on the dats it fails. -/
def sampleHost : Sftp.Host where
  exec command :=
    if Shell.words command = some (Sftp.findWords "dump/blobs".toList) then
      .ok [.data (utf8 "f\t4\t5_1_000000ab_y.blob\nf\t3\t5_1_0000".toList), .exitStatus 0, .other,
        .data (utf8 "00aa_x.blob\n".toList)]
    else .error "no such command"
  opendir path := .ok path
  readdir dir n :=
    if dir = "dump/blobs".toList then
      match n with
      | 0 => .ok [⟨"..".toList, none, true⟩, ⟨"5_1_000000aa_x.blob".toList, some 3, false⟩]
      | 1 => .ok [⟨".".toList, none, true⟩, ⟨"5_1_000000ab_y.blob".toList, some 4, false⟩]
      | _ => .error .eof
    else match n with
      | 0 => .ok [⟨"5_1_000000aa_x.dat".toList, some 3, false⟩, ⟨".".toList, none, true⟩]
      | 1 => .ok []
      | 2 => .ok [⟨"5_1_000000aa_x.dat.!qB".toList, some 2, false⟩]
      | _ => .error .eof

theorem sampleHost_finds :
    Sftp.Finds sampleHost "dump/blobs".toList (sampleFiles "blobs".toList).reverse := by
  intro command hcommand
  refine ⟨_, [utf8 "f\t4\t5_1_000000ab_y.blob\n".toList,
    utf8 "f\t3\t5_1_000000aa_x.blob\n".toList], if_pos hcommand, ?_, ?_, rfl⟩
  · refine .cons ⟨'f', ?_, ?_, ?_⟩ (.cons ⟨'f', ?_, ?_, ?_⟩ .nil)
    all_goals decide +kernel
  · decide +kernel

theorem listDirViaFind_exact_sample :
    Sftp.listDirViaFind sampleHost "dump/blobs".toList =
        .ok ((sampleFiles "blobs".toList).reverse.map Child.entry) ↔
      ∀ c ∈ (sampleFiles "blobs".toList).reverse, Sftp.Plain (fromUtf8Lossy c.name) :=
  Sftp.listDirViaFind_exact sampleHost_finds

theorem sampleHost_blobs :
    Sftp.HasDir sampleHost "dump/blobs".toList (sampleFiles "blobs".toList) := by
  refine ⟨Or.inr ⟨_, List.reverse_perm _, sampleHost_finds⟩, _, List.Perm.refl _,
    "dump/blobs".toList,
    [[⟨"..".toList, none, true⟩, ⟨"5_1_000000aa_x.blob".toList, some 3, false⟩],
      [⟨".".toList, none, true⟩, ⟨"5_1_000000ab_y.blob".toList, some 4, false⟩]],
    [⟨"5_1_000000aa_x.blob".toList, some 3, false⟩, ⟨"5_1_000000ab_y.blob".toList, some 4, false⟩],
    rfl, ⟨rfl, rfl, rfl⟩, ?_, rfl⟩
  refine .cons ⟨?_, rfl, rfl⟩ (.cons ⟨?_, rfl, rfl⟩ .nil)
  all_goals decide +kernel

theorem sampleHost_dats :
    Sftp.HasDir sampleHost "dump/dats".toList (sampleFiles "dats".toList) := by
  have hwords : ¬ Shell.words (Sftp.findCommand "dump/dats".toList) =
      some (Sftp.findWords "dump/blobs".toList) := by
    decide +kernel
  refine ⟨Or.inl ⟨.msg "no such command", ?_⟩, _, List.Perm.refl _, "dump/dats".toList,
    [[⟨"5_1_000000aa_x.dat".toList, some 3, false⟩, ⟨".".toList, none, true⟩], [],
      [⟨"5_1_000000aa_x.dat.!qB".toList, some 2, false⟩]],
    [⟨"5_1_000000aa_x.dat".toList, some 3, false⟩,
      ⟨"5_1_000000aa_x.dat.!qB".toList, some 2, false⟩],
    rfl, ⟨rfl, rfl, rfl, rfl⟩, ?_, rfl⟩
  · unfold Sftp.listDirViaFind sampleHost
    dsimp only
    rw [if_neg hwords]
  · refine .cons ⟨?_, rfl, rfl⟩ (.cons ⟨?_, rfl, rfl⟩ .nil)
    all_goals decide +kernel

theorem loadFrom_remote_sample :
    ∃ enough, ∀ fuel, enough ≤ fuel → ∃ remoteDir j,
      (∀ rel ∈ dumpDirs, Sftp.listDir sampleHost fuel "dump".toList rel = some (remoteDir rel)) ∧
      loadFrom (fun _ => .error (.msg "no such file")) remoteDir = .ok j ∧
        Agree (load (fun name => List.lookup name [])
          ((sampleFiles "blobs".toList).map Child.entry)
          ((sampleFiles "dats".toList).map Child.entry)) j := by
  have hdump : Sftp.path "dump".toList "blobs".toList = "dump/blobs".toList ∧
      Sftp.path "dump".toList "dats".toList = "dump/dats".toList := by
    decide +kernel
  have hok (rel : Str) : localDirs "dump".toList sampleFiles rel =
      .ok ((sampleFiles rel).map Child.entry) := by
    refine LocalBackend.listDir_ok_iff.mpr ⟨rfl, fun c hc => ?_⟩
    unfold sampleFiles at hc
    split_ifs at hc
    all_goals
      rcases List.mem_cons.mp hc with rfl | hc
      · exact ⟨_, rfl⟩
      · rw [List.mem_singleton.mp hc]
        exact ⟨_, rfl⟩
  refine @loadFrom_remote sampleHost "dump".toList _ sampleFiles ?_ ?_ _
    (loadFrom_eq_ok.mpr ⟨[], _, _, rfl, hok _, hok _, rfl⟩) ?_ ?_
  · intro rel hrel
    rcases List.mem_cons.mp hrel with rfl | hrel
    · rw [hdump.1]
      exact sampleHost_blobs
    · rw [List.mem_singleton.mp hrel, hdump.2]
      exact sampleHost_dats
  · have hplain : ∀ rel ∈ dumpDirs, ∀ c ∈ sampleFiles rel,
        '\n' ∉ fromUtf8Lossy c.name ∧ (fromUtf8Lossy c.name).getLast? ≠ some '\r' ∧
          c.lstat.isSymlink = false := by
      decide +kernel
    exact fun rel hrel c hc => ⟨⟨(hplain rel hrel c hc).1, (hplain rel hrel c hc).2.1⟩,
      (hplain rel hrel c hc).2.2⟩
  · decide +kernel
  · decide +kernel

end Index

end Steam2Fs
