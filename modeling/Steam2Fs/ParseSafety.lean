import Steam2Fs.BlobFormat
import Steam2Fs.ChecksumFormat

/-!
# Which blobs make the parsers panic

Every cursor of the five parsers stays within the buffer it reads, or within
the 32-bit table offset it starts from, so no index sum leaves `usize` and no
range index is out of bounds. The one exception is the capacity request of
`decompress`, which is taken from the header as it stands.
-/

namespace Steam2Fs
open Outcome

section Container
variable {data : Bytes}

theorem Blob.parseEntry_returns (hdata : data.length < 2 ^ 63) {pos : ℕ}
    (hpos : pos ≤ max 10 data.length) : (Blob.parseEntry data pos).Returns := by
  refine (u16At_returns data (by omega)).bind fun klen hk => ?_
  have hklen := UInt16.toNat_lt klen
  rw [usizeAdd_ok (by omega), ok_bind]
  refine (u32At_returns data (by omega)).bind fun vlen hv => ?_
  have hvlen := UInt32.toNat_lt vlen
  rw [usizeAdd_ok (by omega), ok_bind, usizeAdd_ok (by omega), ok_bind]
  refine (returns_ofOption _ _).bind fun key _ => ?_
  rw [usizeAdd_ok (by omega), ok_bind]
  refine (returns_ofOption _ _).bind fun value _ => ?_
  rw [usizeAdd_ok (by omega), ok_bind, usizeAdd_ok (by omega), ok_bind]
  exact returns_ok _

theorem Blob.parseEntry_ok {pos next : ℕ} {e : Blob.Entry}
    (h : Blob.parseEntry data pos = .ok (e, next)) :
    e.valueOffset + e.value.length ≤ data.length ∧ next ≤ data.length := by
  obtain ⟨hstands, -, hoffset, rfl⟩ := Blob.parseEntry_sound h
  have hlen : (Blob.writeEntry e.pair).length = 6 + e.key.length + e.value.length :=
    Blob.writeEntry_length e.pair
  have hend := hstands.end_le (by omega)
  omega

theorem Blob.parseFrom_returns (hdata : data.length < 2 ^ 63) (total fuel : ℕ) {pos : ℕ}
    (hpos : pos ≤ max 10 data.length) : (Blob.parseFrom data total fuel pos).Returns := by
  induction fuel generalizing pos with
  | zero => exact returns_ok _
  | succ fuel ih =>
    rw [Blob.parseFrom]
    split_ifs
    · refine (Blob.parseEntry_returns hdata hpos).bind fun p hp => ?_
      exact (ih ((Blob.parseEntry_ok hp).2.trans (le_max_right _ _))).bind fun _ _ => returns_ok _
    · exact returns_ok _

theorem Blob.parse_returns (hdata : data.length < 2 ^ 63) : (Blob.parse data).Returns := by
  refine (u16At_returns data (by norm_num)).bind fun magic _ => returns_guard fun _ => ?_
  refine (u32At_returns data (by norm_num)).bind fun total _ => returns_guard fun _ => ?_
  exact (Blob.parseFrom_returns hdata _ _ (le_max_left _ _)).bind fun _ _ => returns_ok _

theorem Blob.parseFrom_bounded {total fuel pos : ℕ} {es : List Blob.Entry}
    (h : Blob.parseFrom data total fuel pos = .ok es) :
    ∀ e ∈ es, e.valueOffset + e.value.length ≤ data.length := by
  induction fuel generalizing pos es with
  | zero => cases h; simp
  | succ fuel ih =>
    rw [Blob.parseFrom] at h
    split_ifs at h
    · obtain ⟨⟨e, next⟩, he, h⟩ := bind_eq_ok.mp h
      obtain ⟨rest, hrest, h⟩ := bind_eq_ok.mp h
      cases h
      exact List.forall_mem_cons.mpr ⟨(Blob.parseEntry_ok he).1, ih hrest⟩
    · cases h; simp

theorem Blob.parse_bounded {b : Blob} (h : Blob.parse data = .ok b) :
    ∀ e ∈ b.entries, e.valueOffset + e.value.length ≤ data.length := by
  obtain ⟨-, -, -, hloop⟩ := Blob.parse_sound h
  exact Blob.parseFrom_bounded hloop

theorem Blob.require_eq_ok {b : Blob} {key : UInt32} {v : Bytes} (h : b.require key = .ok v) :
    ∃ e ∈ b.entries, b.valueOffset key = .ok e.valueOffset ∧ e.value = v := by
  have hget := ofOption_eq_ok.mp h
  obtain ⟨e, he, hv⟩ := Option.map_eq_some_iff.mp hget
  refine ⟨e, List.mem_of_find?_eq_some he, ?_, hv⟩
  unfold Blob.valueOffset
  rw [he]
  rfl

theorem Blob.require_length {b : Blob} (h : Blob.parse data = .ok b) {key : UInt32} {v : Bytes}
    (hv : b.require key = .ok v) : v.length ≤ data.length := by
  obtain ⟨e, he, -, rfl⟩ := Blob.require_eq_ok hv
  have := Blob.parse_bounded h e he
  omega

theorem Blob.u32_returns (b : Blob) (key : UInt32) : (b.u32 key).Returns := by
  refine (returns_ofOption _ _).bind fun v _ => returns_guard fun _ => ?_
  exact u32At_returns v (by norm_num)

theorem Blob.u32OrU64_returns (b : Blob) (key : UInt32) : (b.u32OrU64 key).Returns := by
  refine (returns_ofOption _ _).bind fun v _ => ?_
  split
  · exact (u32At_returns v (by norm_num)).map _
  · exact u64At_returns v (by norm_num)
  · exact returns_err _

theorem VersionMeta.fromBlob_returns (b : Blob) : (VersionMeta.fromBlob b).Returns := by
  refine (Blob.u32_returns b _).bind fun _ _ => (Blob.u32_returns b _).bind fun _ _ => ?_
  refine (Blob.u32_returns b _).bind fun _ _ => (Blob.u32_returns b _).bind fun _ _ => ?_
  refine (Blob.u32_returns b _).bind fun _ _ => (Blob.u32OrU64_returns b _).bind fun _ _ => ?_
  exact returns_ok _

end Container

section ManifestParser
variable {data : Bytes}

theorem Manifest.checksum_returns (h : HEADER_SIZE ≤ data.length) :
    (Manifest.checksum data).Returns := by
  have hlen : 0x38 ≤ data.length := h
  unfold Manifest.checksum
  rw [indexRange_ok (by omega) (by omega), ok_bind, indexRange_ok (by omega) le_rfl, ok_bind]
  exact returns_ok _

theorem Manifest.parseNode_returns {i : ℕ} (hi : i < 2 ^ 32) :
    (Manifest.parseNode data i).Returns := by
  unfold Manifest.parseNode HEADER_SIZE NODE_SIZE
  rw [usizeMul_ok (by omega), ok_bind, usizeAdd_ok (by omega), ok_bind]
  have field (j : ℕ) (hj : j ≤ 6) :
      (do u32At data (← usizeAdd (0x38 + i * 0x1c) (j * 4)) : Outcome FormatError UInt32).Returns := by
    rw [usizeAdd_ok (by omega), ok_bind]
    exact u32At_returns data (by omega)
  refine (field 0 (by omega)).bind fun _ _ => (field 1 (by omega)).bind fun _ _ => ?_
  refine (field 2 (by omega)).bind fun _ _ => (field 3 (by omega)).bind fun _ _ => ?_
  refine (field 4 (by omega)).bind fun _ _ => (field 5 (by omega)).bind fun _ _ => ?_
  exact (field 6 (by omega)).bind fun _ _ => returns_ok _

theorem Manifest.checkNode_returns (nodes : List Node) (strings : Bytes) (i : ℕ) (n : Node) :
    (Manifest.checkNode nodes strings i n).Returns := by
  unfold Manifest.checkNode
  cases getRange strings n.nameOffset.toNat strings.length with
  | none => exact returns_err _
  | some rest =>
    refine returns_guard fun _ => returns_guard fun _ => returns_guard fun _ => ?_
    exact returns_guard fun _ => returns_ok _

theorem Manifest.parse_returns (data : Bytes) : (Manifest.parse data).Returns := by
  have hdr (i : ℕ) (hi : i ≤ 13) : (u32At data (i * 4)).Returns := u32At_returns data (by omega)
  refine returns_guard fun hlen => ?_
  refine (hdr 0 (by omega)).bind fun _ _ => returns_guard fun _ => ?_
  refine (hdr 1 (by omega)).bind fun _ _ => (hdr 2 (by omega)).bind fun _ _ => ?_
  refine (hdr 3 (by omega)).bind fun num _ => (hdr 6 (by omega)).bind fun _ _ => ?_
  refine (hdr 7 (by omega)).bind fun strings _ => (hdr 5 (by omega)).bind fun _ _ => ?_
  refine (hdr 11 (by omega)).bind fun _ _ => (hdr 12 (by omega)).bind fun _ _ => ?_
  refine (hdr 13 (by omega)).bind fun _ _ => returns_guard fun _ => returns_guard fun _ => ?_
  refine (Manifest.checksum_returns (Nat.not_lt.mp hlen)).bind fun _ _ => returns_guard fun _ => ?_
  have hnum := UInt32.toNat_lt num
  have hstr := UInt32.toNat_lt strings
  have hprod : num.toNat * NODE_SIZE < 2 ^ 37 := by unfold NODE_SIZE; omega
  have hhead : HEADER_SIZE = 0x38 := rfl
  rw [usizeMul_ok (by omega), ok_bind, usizeAdd_ok (by omega), ok_bind,
    usizeAdd_ok (by omega), ok_bind]
  refine returns_guard fun hend => ?_
  rw [withCapacity_ok (by unfold isizeMax; rw [mul_comm]; omega), ok_bind]
  have hnodes : (collect (Manifest.parseNode data) (List.range num.toNat)).Returns :=
    collect_returns fun i hi => Manifest.parseNode_returns (by
      have := List.mem_range.mp hi
      omega)
  refine hnodes.bind fun nodes hn => ?_
  rw [indexRange_ok (by omega) (by omega), ok_bind]
  have hcount : nodes.length = num.toNat := by simpa using collect_length hn
  rw [withCapacity_ok (by unfold isizeMax; omega), ok_bind]
  refine (collect_returns fun p _ => Manifest.checkNode_returns _ _ _ _).bind fun _ _ => ?_
  exact returns_ok _

end ManifestParser

section TableParser
variable {t : Bytes}

/-- A cursor of the table: where the table offset put it, or inside the buffer. -/
def TableCursor (t : Bytes) (pos : ℕ) : Prop := pos ≤ max (2 ^ 37) t.length

theorem TableCursor.step {pos next : ℕ} (hpos : TableCursor t pos)
    (hnext : next ≤ max pos t.length) : TableCursor t next :=
  hnext.trans (max_le hpos (le_max_right _ _))

theorem Checksums.parseBlocks_returns (ht : t.length < 2 ^ 63) (n : ℕ) {pos : ℕ}
    (hpos : TableCursor t pos) : (Checksums.parseBlocks t n pos).Returns := by
  induction n generalizing pos with
  | zero => exact returns_ok _
  | succ n ih =>
    unfold TableCursor at hpos
    rw [Checksums.parseBlocks]
    refine (u32At_returns t (by omega)).bind fun size hsize => ?_
    rw [usizeAdd_ok (by omega), ok_bind]
    refine (u32At_returns t (by omega)).bind fun sum hsum => ?_
    rw [usizeAdd_ok (by omega), ok_bind]
    have hin := u32At_ok hsum
    have hnext : TableCursor t (pos + 8) := by unfold TableCursor; omega
    exact (ih hnext).bind fun _ _ => returns_ok _

theorem Checksums.parseFixed_returns (ht : t.length < 2 ^ 63) (version : UInt32) {pos : ℕ}
    (hpos : TableCursor t pos) : (Checksums.parseFixed t version pos).Returns := by
  unfold TableCursor at hpos
  unfold Checksums.parseFixed
  split_ifs
  · refine (u32At_returns t (by omega)).bind fun _ _ => ?_
    rw [usizeAdd_ok (by omega), ok_bind]
    refine (u32At_returns t (by omega)).bind fun _ _ => ?_
    rw [usizeAdd_ok (by omega), ok_bind]
    refine (u32At_returns t (by omega)).bind fun _ _ => ?_
    rw [usizeAdd_ok (by omega), ok_bind]
    exact returns_ok _
  · refine (u64At_returns t (by omega)).bind fun _ _ => ?_
    rw [usizeAdd_ok (by omega), ok_bind]
    refine (u64At_returns t (by omega)).bind fun _ _ => ?_
    rw [usizeAdd_ok (by omega), ok_bind]
    refine (u32At_returns t (by omega)).bind fun _ _ => ?_
    rw [usizeAdd_ok (by omega), ok_bind]
    exact returns_ok _

theorem Checksums.parseFixed_ok {version : UInt32} {pos next : ℕ} {x : UInt64 × UInt64 × UInt32}
    (hpos : TableCursor t pos) (h : Checksums.parseFixed t version pos = .ok (x, next)) :
    TableCursor t next := by
  obtain ⟨-, -, hstands, rfl⟩ := Checksums.parseFixed_sound h
  have hend := hstands.end_le_max
  simp only [List.length_append, leBytes_length, word_length] at hend
  exact hpos.step (by omega)

theorem Checksums.parseFile_ok {version : UInt32} {start k pos next : ℕ} {r : FileRecord}
    (hpos : TableCursor t pos) (h : Checksums.parseFile t version start k pos = .ok (r, next)) :
    TableCursor t next := by
  obtain ⟨f, -, -, -, hstands, rfl⟩ := Checksums.parseFile_sound h
  exact hpos.step hstands.end_le_max

theorem Checksums.parseFile_returns (ht : t.length < 2 ^ 63) (version : UInt32) (start k : ℕ)
    {pos : ℕ} (hpos : TableCursor t pos) :
    (Checksums.parseFile t version start k pos).Returns := by
  unfold Checksums.parseFile
  refine (returns_ofOption _ _).bind fun id _ => ?_
  refine (Checksums.parseFixed_returns ht version hpos).bind fun fixed hfixed => ?_
  refine (returns_ofOption _ _).bind fun mode _ => ?_
  have hcap : (withCapacity Checksums.BLOCK_BYTES (fixed.1.2.2.toNat % 2 ^ 24) :
      Outcome FormatError Unit) = .ok () :=
    withCapacity_ok (by unfold Checksums.BLOCK_BYTES isizeMax; omega)
  dsimp only
  rw [hcap, ok_bind]
  have hnext := Checksums.parseFixed_ok hpos hfixed
  refine (Checksums.parseBlocks_returns ht _ hnext).bind fun _ _ => ?_
  exact returns_ok _

theorem Checksums.parseFiles_ok {version : UInt32} {start n k pos next : ℕ}
    {rs : List FileRecord} (hk : start + k ≤ 2 ^ 32) (hpos : TableCursor t pos)
    (h : Checksums.parseFiles t version start n k pos = .ok (rs, next)) :
    TableCursor t next := by
  obtain ⟨fs, -, -, -, -, hstands, rfl⟩ := Checksums.parseFiles_sound hk h
  exact hpos.step hstands.end_le_max

theorem Checksums.parseFiles_returns (ht : t.length < 2 ^ 63) (version : UInt32)
    (start n k : ℕ) {pos : ℕ} (hpos : TableCursor t pos) :
    (Checksums.parseFiles t version start n k pos).Returns := by
  induction n generalizing k pos with
  | zero => exact returns_ok _
  | succ n ih =>
    refine (Checksums.parseFile_returns ht version start k hpos).bind fun r hr => ?_
    exact (ih (k + 1) (Checksums.parseFile_ok hpos hr)).bind fun _ _ => returns_ok _

theorem Checksums.parseFileblocks_returns (ht : t.length < 2 ^ 63) (version : UInt32)
    {n fb pos : ℕ} (hfb : fb + n < 2 ^ 32) (hpos : TableCursor t pos) :
    (Checksums.parseFileblocks t version n fb pos).Returns := by
  induction n generalizing fb pos with
  | zero => exact returns_ok _
  | succ n ih =>
    rw [Checksums.parseFileblocks, usizeMul_ok (by omega), ok_bind, usizeAdd_ok (by omega),
      ok_bind]
    refine (u32At_returns t (by omega)).bind fun start _ => ?_
    rw [usizeAdd_ok (by omega), ok_bind]
    refine (u32At_returns t (by omega)).bind fun count _ => ?_
    rw [usizeAdd_ok (by omega), ok_bind]
    refine (u32At_returns t (by omega)).bind fun offset _ => returns_guard fun _ => ?_
    refine (Checksums.parseFiles_returns ht version _ _ _ hpos).bind fun files hfiles => ?_
    have hstart := start.toNat_lt
    have hnext := Checksums.parseFiles_ok (by omega) hpos hfiles
    exact (ih (by omega) hnext).bind fun _ _ => returns_ok _

theorem Checksums.parse_returns (ht : t.length < 2 ^ 63) : (Checksums.parse t).Returns := by
  have hdr (i : ℕ) (hi : i ≤ 7) : (u32At t (i * 4)).Returns := u32At_returns t (by omega)
  refine (hdr 0 (by omega)).bind fun _ _ => returns_guard fun _ => ?_
  refine (hdr 1 (by omega)).bind fun version _ => (hdr 2 (by omega)).bind fun num _ => ?_
  refine (hdr 3 (by omega)).bind fun items _ => (hdr 4 (by omega)).bind fun _ _ => ?_
  refine (hdr 5 (by omega)).bind fun offset2 _ => (hdr 6 (by omega)).bind fun _ _ => ?_
  refine (hdr 7 (by omega)).bind fun _ _ => returns_guard fun _ => returns_guard fun _ => ?_
  have hnum := UInt32.toNat_lt num
  have hitems := UInt32.toNat_lt items
  have hoffset := UInt32.toNat_lt offset2
  rw [usizeMul_ok (by omega), ok_bind, usizeAdd_ok (by omega), ok_bind]
  refine returns_guard fun _ => ?_
  rw [withCapacity_ok (by unfold Checksums.RECORD_BYTES isizeMax; omega), ok_bind]
  have hcur : TableCursor t offset2.toNat := by unfold TableCursor; omega
  refine (Checksums.parseFileblocks_returns ht version (by omega) hcur).bind fun p hp => ?_
  have hend : TableCursor t p.2 := hcur.step (Checksums.parseFileblocks_next hp).2
  unfold TableCursor at hend
  refine (u32At_returns t (by omega)).bind fun _ _ => returns_guard fun _ => ?_
  exact returns_guard fun _ => returns_guard fun _ => returns_ok _

end TableParser

section Whole
variable (codec : Codec)

/-- A compressed-blob header that gets as far as the capacity request, and
declares more bytes than a vector can hold. -/
def OversizedHeader (v : Bytes) : Prop :=
  u16At v 0 = .ok MAGIC_COMPRESSED ∧ 20 ≤ v.length ∧
    ∃ packed unpacked, u64At v 2 = .ok packed ∧ u64At v 10 = .ok unpacked ∧
      20 ≤ packed.toNat ∧ isizeMax < unpacked.toNat

theorem decompress_returns_iff (v : Bytes) :
    (decompress codec v).Returns ↔ ¬ OversizedHeader v := by
  constructor
  · rintro h ⟨hmagic, hlen, packed, unpacked, hpacked, hunpacked, h20, hbig⟩
    apply h
    unfold decompress
    rw [hmagic, ok_bind, if_neg (by simp), hpacked, ok_bind, hunpacked, ok_bind]
    have hbody : getRange v 20 (min packed.toNat v.length) =
        some ((v.drop 20).take (min packed.toNat v.length - 20)) :=
      getRange_eq_some.mpr ⟨by omega, by omega, rfl⟩
    have hpanic : (withCapacity 1 unpacked.toNat : Outcome FormatError Unit) = .panic :=
      withCapacity_panic (by omega)
    dsimp only
    rw [hbody, hpanic]
    rfl
  · intro h
    refine (u16At_returns v (by norm_num)).bind fun magic hmagic => returns_guard fun hne => ?_
    refine (u64At_returns v (by norm_num)).bind fun packed hpacked => ?_
    refine (u64At_returns v (by norm_num)).bind fun unpacked hunpacked => ?_
    refine (returns_ofOption _ _).bind fun body hbody => ?_
    obtain ⟨hlo, hhi, -⟩ := getRange_eq_some.mp (ofOption_eq_ok.mp hbody)
    have hsmall : unpacked.toNat ≤ isizeMax := by
      by_contra hbig
      refine h ⟨?_, by omega, packed, unpacked, hpacked, hunpacked, by omega, by omega⟩
      rw [hmagic, not_not.mp hne]
    rw [withCapacity_ok (by omega), ok_bind]
    split
    · exact returns_err _
    · exact returns_guard fun _ => returns_ok _

theorem decompress_length {v out : Bytes} (h : decompress codec v = .ok out) :
    out.length ≤ isizeMax := by
  obtain ⟨magic, -, h⟩ := bind_eq_ok.mp h
  split_ifs at h
  obtain ⟨packed, -, h⟩ := bind_eq_ok.mp h
  obtain ⟨unpacked, -, h⟩ := bind_eq_ok.mp h
  obtain ⟨body, -, h⟩ := bind_eq_ok.mp h
  obtain ⟨_, hcap, h⟩ := bind_eq_ok.mp h
  unfold withCapacity at hcap
  split_ifs at hcap with hle
  split at h
  · cases h
  · split_ifs at h with hlen
    cases h
    omega

theorem parseManifest_returns_iff (top : Blob) :
    (parseManifest codec top).Returns ↔
      ∀ v, top.require Keys.MANIFEST = .ok v → ¬ OversizedHeader v := by
  constructor
  · intro h v hv
    refine (decompress_returns_iff codec v).mp fun hp => h ?_
    unfold parseManifest
    rw [hv, ok_bind, hp, panic_bind]
  · intro h
    refine (returns_ofOption _ _).bind fun v hv => ?_
    refine ((decompress_returns_iff codec v).mpr (h v hv)).bind fun wrapper hw => ?_
    have hmax : isizeMax < 2 ^ 63 := by decide
    have hlen : wrapper.length < 2 ^ 63 := (decompress_length codec hw).trans_lt hmax
    refine (Blob.parse_returns hlen).bind fun inner _ => ?_
    exact (returns_ofOption _ _).bind fun m _ => Manifest.parse_returns m

theorem ownCrc_returns {bytes : Bytes} (hbytes : bytes.length < 2 ^ 63) {off : ℕ}
    (hoff : off + 4 ≤ bytes.length) : (ownCrc bytes off).Returns := by
  unfold ownCrc
  rw [indexRange_ok (by omega) (by omega), ok_bind, usizeAdd_ok (by omega), ok_bind,
    indexRange_ok hoff le_rfl, ok_bind]
  exact returns_ok _

/-- Past a readable container and readable metadata, the manifest value of the
blob is a compressed blob with an oversized header. -/
def OversizedManifest (bytes : Bytes) : Prop :=
  ∃ top info v, Blob.parse bytes = .ok top ∧ VersionMeta.fromBlob top = .ok info ∧
    top.require Keys.MANIFEST = .ok v ∧ OversizedHeader v

theorem parseBlob_panics {bytes : Bytes} (h : OversizedManifest bytes) :
    parseBlob codec bytes = .panic := by
  obtain ⟨top, info, v, htop, hinfo, hv, hover⟩ := h
  have hpanic : parseManifest codec top = .panic := by
    by_contra hp
    exact (parseManifest_returns_iff codec top).mp hp v hv hover
  unfold parseBlob
  rw [htop, mapErr_ok, ok_bind, hinfo, mapErr_ok, ok_bind, hpanic, mapErr_panic, panic_bind]

theorem parseBlob_returns {bytes : Bytes} (hbytes : bytes.length ≤ isizeMax)
    (h : ¬ OversizedManifest bytes) : (parseBlob codec bytes).Returns := by
  have hmax : isizeMax < 2 ^ 63 := by decide
  have hlen : bytes.length < 2 ^ 63 := by omega
  refine (returns_mapErr.mpr (Blob.parse_returns hlen)).bind fun top htop => ?_
  rw [mapErr_eq_ok] at htop
  refine (returns_mapErr.mpr (VersionMeta.fromBlob_returns top)).bind fun info hinfo => ?_
  rw [mapErr_eq_ok] at hinfo
  have hman : (parseManifest codec top).Returns :=
    (parseManifest_returns_iff codec top).mpr fun v hv hover =>
      h ⟨top, info, v, htop, hinfo, hv, hover⟩
  refine (returns_mapErr.mpr hman).bind fun manifest _ => ?_
  refine (returns_mapErr.mpr (Blob.u32_returns top _)).bind fun _ _ => returns_guard fun _ => ?_
  refine (returns_mapErr.mpr (returns_ofOption _ _)).bind fun own hown => ?_
  refine returns_guard fun hfour => ?_
  obtain ⟨e, he, hoff, rfl⟩ := Blob.require_eq_ok (mapErr_eq_ok.mp hown)
  have hin := Blob.parse_bounded htop e he
  rw [hoff, mapErr_ok, ok_bind]
  refine (ownCrc_returns hlen (by omega)).bind fun crc _ => returns_guard fun _ => ?_
  refine (returns_mapErr.mpr (returns_ofOption _ _)).bind fun table htable => ?_
  have htab := Blob.require_length htop (mapErr_eq_ok.mp htable)
  exact (returns_mapErr.mpr (Checksums.parse_returns (by omega))).bind fun _ _ => returns_ok _

theorem parseBlob_returns_iff (bytes : Bytes) (hbytes : bytes.length ≤ isizeMax) :
    (parseBlob codec bytes).Returns ↔ ¬ OversizedManifest bytes := by
  constructor
  · intro h hover
    exact h (parseBlob_panics codec hover)
  · exact parseBlob_returns codec hbytes

end Whole

def emptyVersion : VersionImage :=
  ⟨Manifest.plainImage [⟨0, 0, NO_FILE, 0, NO_NODE, 0, 0⟩] [0], [], 0, 0, none⟩

set_option maxRecDepth 20000 in
theorem emptyVersion_not_oversized :
    emptyVersion.encode.length ≤ isizeMax ∧ ¬ OversizedManifest emptyVersion.encode := by
  have hlen : emptyVersion.encode.length ≤ isizeMax := by decide +kernel
  refine ⟨hlen, (parseBlob_returns_iff (Codec.stored zeroKeyStream) _ hlen).mp ?_⟩
  decide +kernel

/-- A container whose manifest header declares `2 ^ 63` unpacked bytes. -/
def hugeManifest : Bytes :=
  Blob.encode [(Keys.FORMAT, word 4), (Keys.MANIFEST, wrapStream (2 ^ 63) []),
    (Keys.DAT_CRC, word 0), (Keys.OWN_CRC, word 0), (Keys.PREV_VERSION, word 0xffffffff),
    (Keys.PREV_CRC, word 0), (Keys.DAT_SIZE, leBytes 8 0)]

theorem parseBlob_panics_on_hugeManifest :
    hugeManifest.length ≤ isizeMax ∧
      ¬ (parseBlob (Codec.stored zeroKeyStream) hugeManifest).Returns := by
  decide +kernel

end Steam2Fs
