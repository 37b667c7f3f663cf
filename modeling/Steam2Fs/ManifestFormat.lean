import Steam2Fs.Words

/-!
# The manifest's format

`Manifest.Image` is what a manifest buffer describes and `Image.encode` writes
it. An image is valid when the version is known, the whole fits the 32-bit size
field and every node stays in range: its name starts inside the string table or
at its end, and each link is a terminator or an index.

The parser accepts the encodings of valid images and nothing else. The words
the parser skips are recovered from the buffer, and the checksum word is the
one the encoder computes because both fold the same two ranges. Names come back
from the lengths found while parsing, which end at the first NUL byte or at the
end of the table, so names that share a suffix overlap without harm.
-/

namespace Steam2Fs
open Layout Outcome

def LinkInRange (count : ℕ) (l : UInt32) : Prop := l = 0 ∨ l = NO_NODE ∨ l.toNat < count

structure Node.InRange (count strings : ℕ) (n : Node) : Prop where
  name : n.nameOffset.toNat ≤ strings
  parent : n.parent = NO_NODE ∨ n.parent.toNat < count
  firstChild : LinkInRange count n.firstChild
  nextSibling : LinkInRange count n.nextSibling

namespace Manifest

structure Image.Valid (im : Image) : Prop where
  version : im.formatVersion = 3 ∨ im.formatVersion = 4
  size : HEADER_SIZE + im.body.length < 2 ^ 32
  nodes : ∀ n ∈ im.nodes, n.InRange im.nodes.length im.stringTable.length

/-- The table's bytes from an offset up to the first NUL byte or the end. -/
def nameAt (strings : Bytes) (offset : ℕ) : Bytes := (strings.drop offset).takeWhile (· ≠ 0)

structure Image.Describes (im : Image) (m : Manifest) : Prop where
  formatVersion : m.formatVersion = im.formatVersion
  appId : m.appId = im.appId
  versionId : m.versionId = im.versionId
  depotInfo : m.depotInfo = im.depotInfo
  fingerprint : m.fingerprint = im.fingerprint
  nodes : m.nodes = im.nodes
  stringTable : m.stringTable = im.stringTable
  name : ∀ (i : UInt32) (n : Node), im.nodes[i.toNat]? = some n →
    m.name i = nameAt im.stringTable n.nameOffset.toNat

/-! Single nodes: their bytes and their checks. -/

section Nodes
variable {data : Bytes}

@[simp] theorem nodeEncode_length (n : Node) : n.encode.length = NODE_SIZE := by
  simp [Node.encode, NODE_SIZE]

theorem encodeNodes_length (ns : List Node) :
    (ns.flatMap Node.encode).length = NODE_SIZE * ns.length := by
  induction ns with
  | nil => rfl
  | cons n ns ih =>
    rw [List.flatMap_cons, List.length_append, ih, nodeEncode_length, List.length_cons]
    ring

theorem stands_node_iff {pos : ℕ} {n : Node} :
    Stands data pos n.encode ↔ Stands data pos (word n.nameOffset) ∧
      Stands data (pos + 4) (word n.countOrSize) ∧ Stands data (pos + 8) (word n.fileId) ∧
      Stands data (pos + 12) (word n.flags) ∧ Stands data (pos + 16) (word n.parent) ∧
      Stands data (pos + 20) (word n.nextSibling) ∧
      Stands data (pos + 24) (word n.firstChild) := by
  simp [Node.encode, stands_append, Nat.add_assoc]

theorem parseNode_sound {i : ℕ} {n : Node} (h : parseNode data i = .ok n) :
    Stands data (HEADER_SIZE + NODE_SIZE * i) n.encode := by
  obtain ⟨row, hrow, h⟩ := bind_eq_ok.mp h
  obtain ⟨base, hbase, h⟩ := bind_eq_ok.mp h
  obtain rfl := usizeMul_eq_ok hrow
  obtain rfl := usizeAdd_eq_ok hbase
  have field {j : ℕ} {v : UInt32}
      (hf : (do u32At data (← usizeAdd (HEADER_SIZE + i * NODE_SIZE) (j * 4)) :
        Outcome FormatError UInt32) = .ok v) :
      Stands data (HEADER_SIZE + i * NODE_SIZE + j * 4) (word v) := by
    obtain ⟨off, hoff, hread⟩ := bind_eq_ok.mp hf
    obtain rfl := usizeAdd_eq_ok hoff
    exact u32At_sound hread
  obtain ⟨nameOffset, h0, h⟩ := bind_eq_ok.mp h
  obtain ⟨countOrSize, h1, h⟩ := bind_eq_ok.mp h
  obtain ⟨fileId, h2, h⟩ := bind_eq_ok.mp h
  obtain ⟨flags, h3, h⟩ := bind_eq_ok.mp h
  obtain ⟨parent, h4, h⟩ := bind_eq_ok.mp h
  obtain ⟨nextSibling, h5, h⟩ := bind_eq_ok.mp h
  obtain ⟨firstChild, h6, h⟩ := bind_eq_ok.mp h
  cases h
  rw [Nat.mul_comm NODE_SIZE, stands_node_iff]
  exact ⟨field h0, field h1, field h2, field h3, field h4, field h5, field h6⟩

theorem parseNode_complete {i : ℕ} {n : Node} (hi : i < 2 ^ 32)
    (h : Stands data (HEADER_SIZE + NODE_SIZE * i) n.encode) : parseNode data i = .ok n := by
  rw [Nat.mul_comm NODE_SIZE, stands_node_iff] at h
  obtain ⟨h0, h1, h2, h3, h4, h5, h6⟩ := h
  have hhead : HEADER_SIZE = 0x38 := rfl
  have hsize : NODE_SIZE = 0x1c := rfl
  have field (j : ℕ) {v : UInt32} (hj : j ≤ 6)
      (hv : Stands data (HEADER_SIZE + i * NODE_SIZE + j * 4) (word v)) :
      (do u32At data (← usizeAdd (HEADER_SIZE + i * NODE_SIZE) (j * 4)) :
        Outcome FormatError UInt32) = .ok v := by
    rw [usizeAdd_ok (by rw [hsize]; omega), ok_bind]
    exact u32At_complete hv (by rw [hsize]; omega)
  unfold parseNode
  rw [usizeMul_ok (by rw [hsize]; omega), ok_bind, usizeAdd_ok (by rw [hsize]; omega), ok_bind]
  refine bind_eq_ok.mpr ⟨_, field 0 (by omega) h0, ?_⟩
  refine bind_eq_ok.mpr ⟨_, field 1 (by omega) h1, ?_⟩
  refine bind_eq_ok.mpr ⟨_, field 2 (by omega) h2, ?_⟩
  refine bind_eq_ok.mpr ⟨_, field 3 (by omega) h3, ?_⟩
  refine bind_eq_ok.mpr ⟨_, field 4 (by omega) h4, ?_⟩
  refine bind_eq_ok.mpr ⟨_, field 5 (by omega) h5, ?_⟩
  exact bind_eq_ok.mpr ⟨_, field 6 (by omega) h6, rfl⟩

theorem parseNodes_sound {k count : ℕ} {ns : List Node}
    (h : collect (parseNode data) (List.range' k count) = .ok ns) :
    ns.length = count ∧ Stands data (HEADER_SIZE + NODE_SIZE * k) (ns.flatMap Node.encode) := by
  induction count generalizing k ns with
  | zero =>
    cases h
    exact ⟨rfl, stands_nil⟩
  | succ count ih =>
    obtain ⟨n, hn, h⟩ := bind_eq_ok.mp h
    obtain ⟨rest, hrest, h⟩ := bind_eq_ok.mp h
    cases h
    obtain ⟨hlen, hstands⟩ := ih hrest
    have hnext : HEADER_SIZE + NODE_SIZE * (k + 1) = HEADER_SIZE + NODE_SIZE * k + NODE_SIZE := by
      ring
    rw [hnext] at hstands
    refine ⟨by simp [hlen], ?_⟩
    rw [List.flatMap_cons, stands_append, nodeEncode_length]
    exact ⟨parseNode_sound hn, hstands⟩

theorem parseNodes_complete {k : ℕ} {ns : List Node} (hk : k + ns.length ≤ 2 ^ 32)
    (h : Stands data (HEADER_SIZE + NODE_SIZE * k) (ns.flatMap Node.encode)) :
    collect (parseNode data) (List.range' k ns.length) = .ok ns := by
  induction ns generalizing k with
  | nil => rfl
  | cons n ns ih =>
    rw [List.flatMap_cons, stands_append, nodeEncode_length] at h
    rw [List.length_cons] at hk
    have hnext : HEADER_SIZE + NODE_SIZE * k + NODE_SIZE = HEADER_SIZE + NODE_SIZE * (k + 1) := by
      ring
    rw [hnext] at h
    have hnode := parseNode_complete (by omega) h.1
    have hrest := ih (by omega) h.2
    rw [List.length_cons, List.range'_succ, collect, hnode, ok_bind, hrest, ok_bind]

/-- Length of the name at an offset, as the parse loop finds it. -/
def nameLength (strings : Bytes) (offset : ℕ) : ℕ := (strings.drop offset).findIdx (· = 0)

theorem nameLength_le (strings : Bytes) (offset : ℕ) :
    nameLength strings offset ≤ strings.length - offset := by
  have hle : nameLength strings offset ≤ (strings.drop offset).length := List.findIdx_le_length
  rwa [List.length_drop] at hle

theorem take_nameLength (strings : Bytes) (offset : ℕ) :
    (strings.drop offset).take (nameLength strings offset) = nameAt strings offset := by
  unfold nameLength nameAt
  induction strings.drop offset with
  | nil => rfl
  | cons b bs ih =>
    by_cases hb : b = 0
    · simp [List.findIdx_cons, hb]
    · simp [List.findIdx_cons, hb, ih]

theorem not_linkInRange_iff {count : ℕ} {l : UInt32} :
    ¬ LinkInRange count l ↔ l ≠ 0 ∧ l ≠ NO_NODE ∧ count ≤ l.toNat := by
  rw [LinkInRange, not_or, not_or, Nat.not_lt]

theorem getRange_to_end {strings : Bytes} {offset : ℕ} (h : offset ≤ strings.length) :
    getRange strings offset strings.length = some (strings.drop offset) := by
  rw [getRange, if_pos ⟨h, le_rfl⟩, ← List.length_drop, List.take_length]

theorem checkNode_sound {nodes : List Node} {strings : Bytes} {i : ℕ} {n : Node} {len : UInt32}
    (h : checkNode nodes strings i n = .ok len) :
    n.InRange nodes.length strings.length ∧
      len = UInt32.ofNat (nameLength strings n.nameOffset.toNat) := by
  unfold checkNode at h
  by_cases hname : n.nameOffset.toNat ≤ strings.length
  · rw [getRange_to_end hname] at h
    dsimp only at h
    split_ifs at h with hlong hparent hfirst hnext
    cases h
    rw [not_and_or, not_not, Nat.not_le] at hparent
    have inRange {l : UInt32} (hl : ¬ (l ≠ 0 ∧ l ≠ NO_NODE ∧ nodes.length ≤ l.toNat)) :
        LinkInRange nodes.length l := not_not.mp (mt not_linkInRange_iff.mp hl)
    exact ⟨⟨hname, hparent, inRange hfirst, inRange hnext⟩, rfl⟩
  · rw [getRange, if_neg (fun hc => hname hc.1)] at h
    cases h

theorem checkNode_complete {nodes : List Node} {strings : Bytes} {n : Node} (i : ℕ)
    (hstrings : strings.length < 2 ^ 32) (hn : n.InRange nodes.length strings.length) :
    checkNode nodes strings i n =
      .ok (UInt32.ofNat (nameLength strings n.nameOffset.toNat)) := by
  have hlen := nameLength_le strings n.nameOffset.toNat
  have hshort : ¬ 2 ^ 32 ≤ (strings.drop n.nameOffset.toNat).findIdx (· = 0) := by
    unfold nameLength at hlen
    omega
  have hparent : ¬ (n.parent ≠ NO_NODE ∧ nodes.length ≤ n.parent.toNat) := by
    rw [not_and_or, not_not, Nat.not_le]
    exact hn.parent
  unfold checkNode
  rw [getRange_to_end hn.name]
  dsimp only
  rw [if_neg hshort, if_neg hparent,
    if_neg (mt not_linkInRange_iff.mpr (not_not.mpr hn.firstChild)),
    if_neg (mt not_linkInRange_iff.mpr (not_not.mpr hn.nextSibling)), nameLength]

theorem checkNodes_sound {nodes ns : List Node} {strings : Bytes} {k : ℕ} {lens : List UInt32}
    (h : collect (fun p : Node × ℕ => checkNode nodes strings p.2 p.1) (ns.zipIdx k) = .ok lens) :
    (∀ n ∈ ns, n.InRange nodes.length strings.length) ∧
      lens = ns.map fun n => UInt32.ofNat (nameLength strings n.nameOffset.toNat) := by
  induction ns generalizing k lens with
  | nil =>
    cases h
    simp
  | cons n ns ih =>
    obtain ⟨len, hlen, h⟩ := bind_eq_ok.mp h
    obtain ⟨rest, hrest, h⟩ := bind_eq_ok.mp h
    cases h
    obtain ⟨hn, rfl⟩ := checkNode_sound hlen
    obtain ⟨hns, rfl⟩ := ih hrest
    exact ⟨List.forall_mem_cons.mpr ⟨hn, hns⟩, rfl⟩

theorem checkNodes_complete {nodes ns : List Node} {strings : Bytes} (k : ℕ)
    (hstrings : strings.length < 2 ^ 32)
    (hns : ∀ n ∈ ns, n.InRange nodes.length strings.length) :
    collect (fun p : Node × ℕ => checkNode nodes strings p.2 p.1) (ns.zipIdx k) =
      .ok (ns.map fun n => UInt32.ofNat (nameLength strings n.nameOffset.toNat)) := by
  induction ns generalizing k with
  | nil => rfl
  | cons n ns ih =>
    obtain ⟨hn, hns⟩ := List.forall_mem_cons.mp hns
    have hnode := checkNode_complete k hstrings hn
    rw [List.zipIdx_cons, collect, hnode, ok_bind, ih (k + 1) hns, ok_bind, List.map_cons]

end Nodes

/-! The whole buffer. -/

section Buffer

theorem Image.head_length (im : Image) : im.head.length = 0x30 := by
  simp [Image.head]

theorem Image.stands_head_iff {data : Bytes} {im : Image} :
    Stands data 0 im.head ↔ Stands data 0 (word im.formatVersion) ∧
      Stands data 4 (word im.appId) ∧ Stands data 8 (word im.versionId) ∧
      Stands data 12 (word (UInt32.ofNat im.nodes.length)) ∧
      Stands data 16 (word im.numFiles) ∧ Stands data 20 (word 0x8000) ∧
      Stands data 24 (word (UInt32.ofNat (HEADER_SIZE + im.body.length))) ∧
      Stands data 28 (word (UInt32.ofNat im.stringTable.length)) ∧
      Stands data 32 (word im.hashBuckets) ∧ Stands data 36 (word im.numMfpNodes) ∧
      Stands data 40 (word im.numUserConfigNodes) ∧ Stands data 44 (word im.depotInfo) := by
  simp [Image.head, stands_append]

/-- The two ranges the checksum folds, with eight zero bytes between them. -/
def sumOf (before after : Bytes) : UInt32 :=
  ((((Adler32.fromChecksum 0).writeSlice before).writeSlice
    (List.replicate 8 0)).writeSlice after).checksum

theorem checksum_eq {data : Bytes} (h : HEADER_SIZE ≤ data.length) :
    checksum data = .ok (sumOf (data.take 0x30) (data.drop 0x38)) := by
  have hlen : 0x38 ≤ data.length := h
  unfold checksum
  rw [indexRange_ok (by omega) (by omega), ok_bind, indexRange_ok (by omega) le_rfl, ok_bind]
  rw [← List.length_drop, List.take_length, List.drop_zero, Nat.sub_zero]
  rfl

theorem Image.stands_encode (im : Image) : Stands im.encode 0 im.head ∧
    Stands im.encode 0x30 (word im.fingerprint) ∧ Stands im.encode 0x34 (word im.adler) ∧
    Stands im.encode 0x38 im.body := by
  have h : Stands im.encode 0 im.encode := stands_zero.mpr (List.prefix_refl _)
  nth_rewrite 2 [Image.encode] at h
  simp only [stands_append, List.length_append, word_length, Image.head_length, Nat.zero_add] at h
  exact ⟨h.1.1.1, h.1.1.2, h.1.2, h.2⟩

theorem Image.encode_length (im : Image) : im.encode.length = HEADER_SIZE + im.body.length := by
  simp only [Image.encode, List.length_append, Image.head_length, word_length]
  rfl

theorem Image.checksum_encode (im : Image) : checksum im.encode = .ok im.adler := by
  obtain ⟨hhead, -, -, hbody⟩ := im.stands_encode
  have htake := hhead.take_eq
  rw [Image.head_length, List.drop_zero] at htake
  have hdrop : im.encode.drop 0x38 = im.body := by
    refine (hbody.eq_of_length ?_).symm
    rw [List.length_drop, im.encode_length]
    simp [HEADER_SIZE]
  have hlen : HEADER_SIZE ≤ im.encode.length := by
    rw [im.encode_length]
    omega
  rw [checksum_eq hlen, htake, hdrop]
  rfl

def Image.manifest (im : Image) : Manifest :=
  let m : Manifest :=
    ⟨im.formatVersion, im.appId, im.versionId, im.depotInfo, im.fingerprint, im.nodes,
      im.stringTable, im.nodes.map fun n =>
        UInt32.ofNat (nameLength im.stringTable n.nameOffset.toNat), []⟩
  { m with byName := m.sortedByName }

theorem Image.describes_manifest {im : Image} (hvalid : im.Valid) : im.Describes im.manifest := by
  refine ⟨rfl, rfl, rfl, rfl, rfl, rfl, rfl, fun i n hn => ?_⟩
  have hname := (hvalid.nodes n (List.mem_of_getElem? hn)).name
  have hsize := hvalid.size
  have hlen := nameLength_le im.stringTable n.nameOffset.toNat
  have hbody : im.stringTable.length ≤ im.body.length := by
    simp only [Image.body, List.length_append]
    omega
  have hfits : (UInt32.ofNat (nameLength im.stringTable n.nameOffset.toNat)).toNat =
      nameLength im.stringTable n.nameOffset.toNat :=
    ofNat32_toNat (by omega)
  have hnode : im.manifest.node i = some n := hn
  have hnameLen : im.manifest.nameLen[i.toNat]? =
      some (UInt32.ofNat (nameLength im.stringTable n.nameOffset.toNat)) := by
    rw [show im.manifest.nameLen = im.nodes.map _ from rfl, List.getElem?_map, hn]
    rfl
  have hend : n.nameOffset.toNat + nameLength im.stringTable n.nameOffset.toNat ≤
      im.manifest.stringTable.length := by
    change _ ≤ im.stringTable.length
    omega
  rw [name, hnode]
  dsimp only
  rw [hnameLen, Option.getD_some, hfits, getRange, if_pos ⟨Nat.le_add_right _ _, hend⟩,
    Nat.add_sub_cancel_left, Option.getD_some]
  exact take_nameLength im.stringTable n.nameOffset.toNat

theorem parse_encode {im : Image} (hvalid : im.Valid) : parse im.encode = .ok im.manifest := by
  obtain ⟨hhead, hfinger, hadler, hbody⟩ := im.stands_encode
  obtain ⟨h0, h1, h2, h3, -, h5, h6, h7, -, -, -, h11⟩ := Image.stands_head_iff.mp hhead
  rw [Image.body, stands_append, stands_append, List.length_append, encodeNodes_length] at hbody
  obtain ⟨⟨hnodes, hstrings⟩, -⟩ := hbody
  have hsize := hvalid.size
  have hlength := im.encode_length
  have hbodyLen : im.body.length =
      NODE_SIZE * im.nodes.length + im.stringTable.length + im.trailing.length := by
    simp only [Image.body, List.length_append, encodeNodes_length]
  have hhs : HEADER_SIZE = 0x38 := rfl
  have hns : NODE_SIZE = 0x1c := rfl
  rw [hns] at hbodyLen
  have hcount : (UInt32.ofNat im.nodes.length).toNat = im.nodes.length :=
    ofNat32_toNat (by omega)
  have hbinary : (UInt32.ofNat (HEADER_SIZE + im.body.length)).toNat =
      HEADER_SIZE + im.body.length := ofNat32_toNat hsize
  have htable : (UInt32.ofNat im.stringTable.length).toNat = im.stringTable.length :=
    ofNat32_toNat (by omega)
  have hversion : ¬ (im.formatVersion ≠ 3 ∧ im.formatVersion ≠ 4) := by
    rw [not_and_or, not_not, not_not]
    exact hvalid.version
  have hloop := parseNodes_complete (k := 0) (by omega) hnodes
  rw [← List.range_eq_range'] at hloop
  have hcheck := checkNodes_complete 0 (by omega) hvalid.nodes
  have hslice : (indexRange im.encode (0x38 + im.nodes.length * NODE_SIZE)
      (0x38 + im.nodes.length * NODE_SIZE + im.stringTable.length) : Outcome FormatError Bytes) =
      .ok im.stringTable := by
    rw [indexRange_ok (by omega) (by rw [hns]; omega), Nat.add_sub_cancel_left]
    rw [Nat.mul_comm] at hstrings
    rw [hstrings.take_eq]
  unfold parse
  rw [if_neg (by omega)]
  simp only [Nat.reduceMul, Nat.zero_mul]
  rw [u32At_complete h0 (by omega), ok_bind, if_neg hversion, u32At_complete h1 (by omega), ok_bind,
    u32At_complete h2 (by omega), ok_bind, u32At_complete h3 (by omega), ok_bind,
    u32At_complete h6 (by omega), ok_bind, u32At_complete h7 (by omega), ok_bind,
    u32At_complete h5 (by omega), ok_bind, u32At_complete h11 (by omega), ok_bind,
    u32At_complete hfinger (by omega), ok_bind, u32At_complete hadler (by omega), ok_bind,
    if_neg (by decide), hbinary, if_neg (by rw [hlength]; simp), im.checksum_encode, ok_bind,
    if_neg (by simp), hcount, htable, usizeMul_ok (by rw [hns]; omega), ok_bind,
    usizeAdd_ok (by rw [hns]; omega), ok_bind, usizeAdd_ok (by rw [hns]; omega), ok_bind,
    if_neg (by rw [hns]; omega), withCapacity_ok (by rw [hns]; unfold isizeMax; omega), ok_bind,
    hloop, ok_bind, hhs, hslice, ok_bind, withCapacity_ok (by unfold isizeMax; omega), ok_bind,
    hcheck, ok_bind]
  rfl

theorem eq_encode {data : Bytes} {im : Image} (hhead : Stands data 0 im.head)
    (hfinger : Stands data 0x30 (word im.fingerprint)) (hbody : im.body = data.drop 0x38)
    (hsum : Stands data 0x34 (word (sumOf (data.take 0x30) (data.drop 0x38)))) :
    data = im.encode := by
  have htake := hhead.take_eq
  rw [Image.head_length, List.drop_zero] at htake
  have hadler : sumOf (data.take 0x30) (data.drop 0x38) = im.adler := by
    rw [htake, ← hbody]
    rfl
  rw [hadler] at hsum
  have hfixed : Stands data 0 (im.head ++ word im.fingerprint ++ word im.adler) := by
    simp only [stands_append, List.length_append, word_length, Image.head_length, Nat.zero_add]
    exact ⟨⟨hhead, hfinger⟩, hsum⟩
  have hsplit := hfixed.drop_eq
  simp only [List.length_append, word_length, Image.head_length, List.drop_zero] at hsplit
  rw [Image.encode, hbody]
  exact hsplit

theorem parse_sound {data : Bytes} {m : Manifest} (h : parse data = .ok m) :
    ∃ im : Image, im.Valid ∧ data = im.encode := by
  unfold parse at h
  split_ifs at h with hshort
  obtain ⟨formatVersion, h0, h⟩ := bind_eq_ok.mp h
  split_ifs at h with hversion
  obtain ⟨appId, h1, h⟩ := bind_eq_ok.mp h
  obtain ⟨versionId, h2, h⟩ := bind_eq_ok.mp h
  obtain ⟨num, h3, h⟩ := bind_eq_ok.mp h
  obtain ⟨binarySize, h6, h⟩ := bind_eq_ok.mp h
  obtain ⟨stringSize, h7, h⟩ := bind_eq_ok.mp h
  obtain ⟨blockSize, h5, h⟩ := bind_eq_ok.mp h
  obtain ⟨depotInfo, h11, h⟩ := bind_eq_ok.mp h
  obtain ⟨fingerprint, h12, h⟩ := bind_eq_ok.mp h
  obtain ⟨expected, h13, h⟩ := bind_eq_ok.mp h
  split_ifs at h with hblock hbinary
  obtain ⟨actual, hactual, h⟩ := bind_eq_ok.mp h
  split_ifs at h with hsum
  obtain ⟨rows, hrows, h⟩ := bind_eq_ok.mp h
  obtain ⟨nodesEnd, hnodesEnd, h⟩ := bind_eq_ok.mp h
  obtain ⟨stringsEnd, hstringsEnd, h⟩ := bind_eq_ok.mp h
  split_ifs at h with hfit
  obtain ⟨_, -, h⟩ := bind_eq_ok.mp h
  obtain ⟨nodes, hnodes, h⟩ := bind_eq_ok.mp h
  obtain ⟨strings, hstrings, h⟩ := bind_eq_ok.mp h
  obtain ⟨_, -, h⟩ := bind_eq_ok.mp h
  obtain ⟨lens, hlens, -⟩ := bind_eq_ok.mp h
  obtain rfl := usizeMul_eq_ok hrows
  obtain rfl := usizeAdd_eq_ok hnodesEnd
  obtain rfl := usizeAdd_eq_ok hstringsEnd
  rw [not_not] at hblock hbinary hsum
  rw [not_and_or, not_not, not_not] at hversion
  have hlen : 0x38 ≤ data.length := Nat.not_lt.mp hshort
  have hns : NODE_SIZE = 0x1c := rfl
  have hhs : HEADER_SIZE = 0x38 := rfl
  -- The words the parser skips.
  obtain ⟨numFiles, h4⟩ := exists_word (show 16 + 4 ≤ data.length by omega)
  obtain ⟨hashBuckets, h8⟩ := exists_word (show 32 + 4 ≤ data.length by omega)
  obtain ⟨numMfpNodes, h9⟩ := exists_word (show 36 + 4 ≤ data.length by omega)
  obtain ⟨numUserConfigNodes, h10⟩ := exists_word (show 40 + 4 ≤ data.length by omega)
  rw [List.range_eq_range'] at hnodes
  obtain ⟨hcount, hbytes⟩ := parseNodes_sound hnodes
  rw [indexRange_ok (by omega) (by omega), Nat.add_sub_cancel_left] at hstrings
  have hstrings := (Outcome.ok.inj hstrings).symm
  have hstringsLen : strings.length = stringSize.toNat := by
    rw [hstrings, List.length_take, List.length_drop]
    omega
  obtain ⟨hinRange, -⟩ := checkNodes_sound hlens
  let im : Image := ⟨formatVersion, appId, versionId, numFiles, hashBuckets, numMfpNodes,
    numUserConfigNodes, depotInfo, fingerprint, nodes, strings,
    data.drop (HEADER_SIZE + num.toNat * NODE_SIZE + stringSize.toNat)⟩
  have hbody : im.body = data.drop 0x38 := by
    have hnodesSplit := hbytes.drop_eq
    rw [encodeNodes_length, hcount, Nat.mul_zero, Nat.add_zero, Nat.mul_comm] at hnodesSplit
    have hstringsStand : Stands data (HEADER_SIZE + num.toNat * NODE_SIZE) strings := by
      rw [hstrings]
      exact stands_slice _ _ _
    have hstringsSplit := hstringsStand.drop_eq
    rw [hstringsLen] at hstringsSplit
    change nodes.flatMap Node.encode ++ strings ++ data.drop _ = data.drop HEADER_SIZE
    rw [hnodesSplit, hstringsSplit, List.append_assoc]
  have hbodyLen : HEADER_SIZE + im.body.length = data.length := by
    rw [hbody, List.length_drop, hhs]
    omega
  have hhead : Stands data 0 im.head := by
    have hblock : blockSize = 0x8000 := UInt32.toNat_inj.mp hblock
    rw [hblock] at h5
    rw [Image.stands_head_iff, hbodyLen, ← hbinary]
    change _ ∧ _ ∧ _ ∧ Stands data 12 (word (UInt32.ofNat nodes.length)) ∧ _ ∧ _ ∧ _ ∧
      Stands data 28 (word (UInt32.ofNat strings.length)) ∧ _
    rw [hcount, hstringsLen]
    simp only [UInt32.ofNat_toNat]
    exact ⟨u32At_sound h0, u32At_sound h1, u32At_sound h2, u32At_sound h3, h4, u32At_sound h5,
      u32At_sound h6, u32At_sound h7, h8, h9, h10, u32At_sound h11⟩
  have hsumStands := u32At_sound h13
  rw [checksum_eq hlen] at hactual
  rw [← hsum, ← Outcome.ok.inj hactual] at hsumStands
  refine ⟨im, ⟨hversion, ?_, hinRange⟩, eq_encode hhead (u32At_sound h12) hbody hsumStands⟩
  rw [hbodyLen, ← hbinary]
  exact binarySize.toNat_lt

/-- The parser returns the described manifest on every encoding of a valid
image, and accepts no other buffer. -/
theorem parse_accepts_images :
    (∀ im : Image, im.Valid → ∃ m, parse im.encode = .ok m ∧ im.Describes m) ∧
      ∀ data m, parse data = .ok m → ∃ im : Image, im.Valid ∧ data = im.encode := by
  constructor
  · intro im hvalid
    exact ⟨im.manifest, parse_encode hvalid, Image.describes_manifest hvalid⟩
  · intro data m h
    exact parse_sound h

/-- Three names over the unterminated table `ab`: empty, `ab` and its suffix. -/
def sharedSuffix : Image :=
  plainImage [⟨2, 2, NO_FILE, 0, NO_NODE, 0, 1⟩, ⟨0, 0, 1, 0, 0, 2, 0⟩, ⟨1, 0, 2, 0, 0, NO_NODE, 0⟩]
    [0x61, 0x62]

theorem sharedSuffix_valid : sharedSuffix.Valid := by
  refine ⟨by decide, by decide, fun n hn => ?_⟩
  simp only [sharedSuffix, plainImage, List.mem_cons, List.not_mem_nil, or_false] at hn
  rcases hn with rfl | rfl | rfl
  all_goals
    exact ⟨by decide, by decide, by unfold LinkInRange; decide, by unfold LinkInRange; decide⟩

theorem sharedSuffix_names : ∃ m, parse sharedSuffix.encode = .ok m ∧
    m.name 0 = [] ∧ m.name 1 = [0x61, 0x62] ∧ m.name 2 = [0x62] := by
  obtain ⟨m, hparse, hd⟩ := parse_accepts_images.1 sharedSuffix sharedSuffix_valid
  refine ⟨m, hparse, ?_, ?_, ?_⟩
  · rw [hd.name 0 _ rfl]
    decide
  · rw [hd.name 1 _ rfl]
    decide
  · rw [hd.name 2 _ rfl]
    decide

end Buffer

end Manifest
end Steam2Fs
