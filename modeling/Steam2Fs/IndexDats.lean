import Steam2Fs.IndexOrder

/-!
# Which dat an identity finds

A dat's depot, version and crc are read off its name, and so is whether its
download is complete. Any number of files may share one identity. `findDat`
answers with a complete one if there is any, wherever in the listing it
stands, because the map of keys holds a preferred file after every entry of
the scan.
-/

namespace Steam2Fs
open Text

/-! ### The names of dats -/

/-- What is read off a name before its extension; only the last of the four
parts may hold an underscore. -/
theorem parseName_eq_some_iff {name ext sha : Str} {p : ParsedName} :
    parseName name ext = some (p, sha) ↔ ∃ depot version crc : Str,
      name = depot ++ '_' :: (version ++ '_' :: (crc ++ '_' :: sha)) ++ ext ∧
        parseU32 10 depot = some p.depot ∧ parseU32 10 version = some p.version ∧
          parseU32 16 crc = some p.crc := by
  have hnone {radix : ℕ} (hr : digitVal radix '_' = none) {s : Str} {n : UInt32}
      (hs : parseU32 radix s = some n) : '_' ∉ s := by
    obtain ⟨m, hm, -⟩ := Option.map_eq_some_iff.mp hs
    exact notMem_of_fromStrRadix hr (by decide) hm
  unfold parseName
  constructor
  · intro h
    obtain ⟨stem, hstem, h⟩ := Option.bind_eq_some_iff.mp h
    obtain ⟨⟨depot, rest⟩, hdepot, h⟩ := Option.bind_eq_some_iff.mp h
    obtain ⟨⟨version, rest'⟩, hversion, h⟩ := Option.bind_eq_some_iff.mp h
    obtain ⟨⟨crc, sha'⟩, hcrc, h⟩ := Option.bind_eq_some_iff.mp h
    obtain ⟨d, hd, h⟩ := Option.bind_eq_some_iff.mp h
    obtain ⟨v, hv, h⟩ := Option.bind_eq_some_iff.mp h
    obtain ⟨c, hc, h⟩ := Option.bind_eq_some_iff.mp h
    cases h
    obtain ⟨rfl, -⟩ := splitOnce_eq_some_iff.mp hcrc
    obtain ⟨rfl, -⟩ := splitOnce_eq_some_iff.mp hversion
    obtain ⟨rfl, -⟩ := splitOnce_eq_some_iff.mp hdepot
    exact ⟨depot, version, crc, stripSuffix_eq_some_iff.mp hstem, hd, hv, hc⟩
  · rintro ⟨depot, version, crc, rfl, hd, hv, hc⟩
    rw [stripSuffix_eq_some_iff.mpr rfl, Option.bind_eq_bind, Option.bind_some,
      splitOnce_append (hnone (by decide) hd)]
    simp [splitOnce_append (hnone (by decide) hv), splitOnce_append (hnone (by decide) hc),
      hd, hv, hc]

/-- `depot_version_crc_sha256.dat`, the first two in decimal and the crc in
hexadecimal. -/
def IsDatName (k : UInt32 × UInt32 × UInt32) (name : Str) : Prop :=
  ∃ depot version crc sha : Str,
    name = depot ++ '_' :: (version ++ '_' :: (crc ++ '_' :: sha)) ++ ".dat".toList ∧
      parseU32 10 depot = some k.1 ∧ parseU32 10 version = some k.2.1 ∧
        parseU32 16 crc = some k.2.2

variable {k : UInt32 × UInt32 × UInt32} {name : Str}

theorem isDatName_iff :
    IsDatName k name ↔ ∃ r, parseName name ".dat".toList = some r ∧ r.1.key = k := by
  constructor
  · rintro ⟨depot, version, crc, sha, hname, hd, hv, hc⟩
    exact ⟨(⟨k.1, k.2.1, k.2.2⟩, sha),
      parseName_eq_some_iff.mpr ⟨depot, version, crc, hname, hd, hv, hc⟩, rfl⟩
  · rintro ⟨⟨p, sha⟩, hparse, rfl⟩
    obtain ⟨depot, version, crc, hname, hd, hv, hc⟩ := parseName_eq_some_iff.mp hparse
    exact ⟨depot, version, crc, sha, hname, hd, hv, hc⟩

theorem IsDatName.not_marked (h : IsDatName k name) : stripSuffix ".!qB".toList name = none := by
  obtain ⟨depot, version, crc, sha, rfl, -⟩ := h
  rw [Option.eq_none_iff_forall_ne_some]
  intro t ht
  generalize depot ++ '_' :: (version ++ '_' :: (crc ++ '_' :: sha)) = stem at ht
  have hlast := congrArg List.getLast? (stripSuffix_eq_some_iff.mp ht)
  have hdat : ".dat".toList.getLast? = some 't' := by decide
  have hmark : ".!qB".toList.getLast? = some 'B' := by decide
  rw [List.getLast?_append, List.getLast?_append, hdat, hmark] at hlast
  exact absurd (Option.some.inj hlast) (by decide)

namespace DirEntry
variable {e : DirEntry} {x : DatEntry}

def CompleteDat (e : DirEntry) (k : UInt32 × UInt32 × UInt32) : Prop := IsDatName k e.name

/-- A download in progress: the name carries a trailing `.!qB`. -/
def UnfinishedDat (e : DirEntry) (k : UInt32 × UInt32 × UInt32) : Prop :=
  ∃ name, e.name = name ++ ".!qB".toList ∧ IsDatName k name

theorem CompleteDat.dat (h : e.CompleteDat k) :
    ∃ x, e.dat = some x ∧ x.key = k ∧ x.incomplete = false := by
  obtain ⟨r, hr, hk⟩ := isDatName_iff.mp h
  unfold DirEntry.dat
  rw [IsDatName.not_marked h]
  dsimp only [Option.getD_none]
  rw [hr]
  exact ⟨_, rfl, hk, rfl⟩

theorem UnfinishedDat.dat (h : e.UnfinishedDat k) : ∃ x, e.dat = some x ∧ x.key = k := by
  obtain ⟨name, hname, h⟩ := h
  obtain ⟨r, hr, hk⟩ := isDatName_iff.mp h
  unfold DirEntry.dat
  rw [stripSuffix_eq_some_iff.mpr hname]
  dsimp only [Option.getD_some]
  rw [hr]
  exact ⟨_, rfl, hk⟩

theorem of_dat (h : e.dat = some x) :
    x.path = "dats/".toList ++ e.name ∧ x.size = e.size ∧
      if x.incomplete then e.UnfinishedDat x.key else e.CompleteDat x.key := by
  obtain ⟨r, hr, rfl⟩ := Option.map_eq_some_iff.mp h
  refine ⟨rfl, rfl, ?_⟩
  cases hstrip : stripSuffix ".!qB".toList e.name with
  | none =>
    rw [hstrip] at hr
    exact isDatName_iff.mpr ⟨r, hr, rfl⟩
  | some name =>
    rw [hstrip] at hr
    exact ⟨name, stripSuffix_eq_some_iff.mp hstrip, isDatName_iff.mpr ⟨r, hr, rfl⟩⟩

end DirEntry

/-! ### The scan of the listing -/

namespace Index

/-- Ids stay below the number of names listed, so a `u32` holds them for
listings of up to 2^32 names. -/
theorem load_ids_lt (dates : Str → Option Instant) (bs ds : List DirEntry) :
    (∀ b ∈ (load dates bs ds).blobByKey, b.2 < bs.length) ∧
      ∀ i ∈ (load dates bs ds).datByKey, i.2 < ds.length := by
  have hrange : (load dates bs ds).InRange := load_inRange bs ds
  have hblobs : (load dates bs ds).blobs.length ≤ bs.length := by
    rw [(load_blobs bs ds).1]
    exact List.length_filterMap_le _ _
  have hdats : (load dates bs ds).dats.length ≤ ds.length := by
    rw [(load_dats bs ds).1]
    exact List.length_filterMap_le _ _
  exact ⟨fun b hb => (hrange.blobByKey b hb).trans_le hblobs,
    fun i hi => (hrange.datByKey i hi).trans_le hdats⟩

/-- An identity is found exactly when a listed name has it, and a complete file
is found wherever one is listed. -/
theorem findDat_complete_first (dates : Str → Option Instant) (bs ds : List DirEntry)
    (depot version crc : UInt32) :
    (((load dates bs ds).findDat depot version crc).isSome = true ↔
      ∃ e ∈ ds, e.CompleteDat (depot, version, crc) ∨ e.UnfinishedDat (depot, version, crc)) ∧
    ∀ i, (load dates bs ds).findDat depot version crc = some i →
      ∃ x, (load dates bs ds).dats[i]? = some x ∧ x.key = (depot, version, crc) ∧
        (∃ e ∈ ds, x.path = "dats/".toList ++ e.name ∧ x.size = e.size ∧
          if x.incomplete then e.UnfinishedDat (depot, version, crc)
          else e.CompleteDat (depot, version, crc)) ∧
        ((∃ e ∈ ds, e.CompleteDat (depot, version, crc)) → x.incomplete = false) := by
  obtain ⟨hdats, hfound⟩ := @load_dats dates bs ds
  have hmem {x : DatEntry} :
      x ∈ (load dates bs ds).dats ↔ ∃ e ∈ ds, e.dat = some x := by
    rw [hdats, List.mem_filterMap]
  refine ⟨⟨fun h => ?_, ?_⟩, fun i hi => ?_⟩
  · obtain ⟨i, hi⟩ := Option.isSome_iff_exists.mp h
    obtain ⟨x, hx, hpref⟩ := hfound.found _ i hi
    obtain ⟨e, he, hdat⟩ := hmem.mp hpref.1
    obtain ⟨-, -, hname⟩ := DirEntry.of_dat hdat
    rw [hpref.2.1] at hname
    refine ⟨e, he, ?_⟩
    split at hname
    · exact Or.inr hname
    · exact Or.inl hname
  · rintro ⟨e, he, hname⟩
    obtain ⟨x, hdat, hkey⟩ : ∃ x, e.dat = some x ∧ x.key = (depot, version, crc) := by
      rcases hname with hname | hname
      · obtain ⟨x, hdat, hkey, -⟩ := hname.dat
        exact ⟨x, hdat, hkey⟩
      · exact hname.dat
    by_contra hnone
    exact hfound.missing _ (Option.not_isSome_iff_eq_none.mp hnone) x (hmem.mpr ⟨e, he, hdat⟩) hkey
  · obtain ⟨x, hx, hpref⟩ := hfound.found _ i hi
    obtain ⟨e, he, hdat⟩ := hmem.mp hpref.1
    obtain ⟨hpath, hsize, hname⟩ := DirEntry.of_dat hdat
    rw [hpref.2.1] at hname
    refine ⟨x, hx, hpref.2.1, ⟨e, he, hpath, hsize, hname⟩, ?_⟩
    rintro ⟨e', he', hcomplete⟩
    obtain ⟨y, hdat', hkey', hdone⟩ := hcomplete.dat
    by_contra hinc
    have hall := hpref.2.2 (Bool.eq_true_of_not_eq_false hinc) y (hmem.mpr ⟨e', he', hdat'⟩) hkey'
    rw [hdone] at hall
    cases hall

theorem copies_complete_first :
    ∃ i x, (load (fun _ => none) [] copyNames.reverse).findDat 5 1 0xaa = some i ∧
      (load (fun _ => none) [] copyNames.reverse).dats[i]? = some x ∧ x.incomplete = false := by
  obtain ⟨hiff, hfound⟩ := findDat_complete_first (fun _ => none) [] copyNames.reverse 5 1 0xaa
  have hlisted : ∃ e ∈ copyNames.reverse, e.CompleteDat (5, 1, 0xaa) := by
    refine ⟨⟨"5_1_000000aa_x.dat".toList, 3, false⟩, by decide, "5".toList, "1".toList,
      "000000aa".toList, "x".toList, by decide, ?_⟩
    exact ⟨by decide +kernel, by decide +kernel, by decide +kernel⟩
  obtain ⟨e, he, hname⟩ := hlisted
  obtain ⟨i, hi⟩ := Option.isSome_iff_exists.mp (hiff.mpr ⟨e, he, Or.inl hname⟩)
  obtain ⟨x, hx, -, -, hcomplete⟩ := hfound i hi
  exact ⟨i, x, hi, hx, hcomplete ⟨e, he, hname⟩⟩

end Index
end Steam2Fs
