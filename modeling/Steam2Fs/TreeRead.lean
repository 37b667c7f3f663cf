import Mathlib.Data.UInt
import Steam2Fs.Memory
import Steam2Fs.StoreCache
import Steam2Fs.StoreRead
import Steam2Fs.Tree

/-!
# Reading a file of the tree

`read` answers an exact slice of the file: all bytes of the request below the
end of the file, when every block it covers is there, and an error otherwise.
Reads of neighbouring ranges join up, and a file that is read whole has the
size its metadata reports.
-/

namespace Steam2Fs
open Outcome

/-- The blocks from the one that holds `offset` to the one that holds the last
byte of the request. -/
def Covers (loc : FileLoc) (offset len : UInt64) (i : ℕ) : Prop :=
  offset.toNat / BLOCK_SIZE ≤ i ∧ i ≤ (readEnd loc offset len - 1) / BLOCK_SIZE

def sliceOf (loc : FileLoc) (f : ℕ → Outcome ReadError Bytes) (offset len : UInt64) : Bytes :=
  let first := offset.toNat / BLOCK_SIZE
  let last := (readEnd loc offset len - 1) / BLOCK_SIZE
  ((concatBlocks f first (last - first + 1)).drop (offset.toNat % BLOCK_SIZE)).take
    (readEnd loc offset len - offset.toNat)

/-- `r` is the exact answer to a request, given the outcomes `f` of its blocks. -/
structure ExactAnswer (loc : FileLoc) (f : ℕ → Outcome ReadError Bytes) (offset len : UInt64)
    (r : Outcome ReadError Bytes) : Prop where
  empty : loc.record.size ≤ offset ∨ len = 0 → r = .ok []
  ok_iff : offset < loc.record.size → len ≠ 0 → ∀ v, r = .ok v ↔
    (∀ i, Covers loc offset len i → (f i).isOk = true) ∧ v = sliceOf loc f offset len
  fails : offset < loc.record.size → len ≠ 0 →
    (∃ i, Covers loc offset len i ∧ (f i).isOk = false) → ∃ e, r = .err e

section Exact
variable {loc : FileLoc} {f : ℕ → Outcome ReadError Bytes} {offset len : UInt64}

theorem covers_iff (hlt : offset.toNat < readEnd loc offset len) {i : ℕ} :
    Covers loc offset len i ↔
      ∃ p, offset.toNat ≤ p ∧ p < readEnd loc offset len ∧ p / BLOCK_SIZE = i := by
  constructor
  · rintro ⟨h₁, h₂⟩
    refine ⟨max offset.toNat (i * BLOCK_SIZE), by omega, ?_, ?_⟩
    · unfold BLOCK_SIZE at *
      omega
    · unfold BLOCK_SIZE at *
      omega
  · rintro ⟨p, h₁, h₂, rfl⟩
    unfold Covers BLOCK_SIZE
    omega

theorem readWith_exact (hf : ExactBlocks loc f) (hret : ∀ i, (f i).Returns)
    (hfit : offset.toNat + len.toNat < 2 ^ 64)
    (hsmall : readEnd loc offset len - offset.toNat ≤ isizeMax) :
    ExactAnswer loc f offset len (readWith loc f offset len) := by
  have hok : offset < loc.record.size → len ≠ 0 → ∀ v, readWith loc f offset len = .ok v ↔
      (∀ i, Covers loc offset len i → (f i).isOk = true) ∧ v = sliceOf loc f offset len := by
    intro hoff hlen v
    have hlt : offset.toNat < readEnd loc offset len := by
      have h₁ := UInt64.lt_iff_toNat_lt.mp hoff
      have h₂ : len.toNat ≠ 0 := fun h => hlen (UInt64.toNat_inj.mp (by simpa using h))
      unfold readEnd
      omega
    have hend : readEnd loc offset len ≤ loc.record.size.toNat := by
      unfold readEnd
      omega
    rw [readWith_eq_ok hf hfit hsmall, max_eq_right hlt.le]
    have hcover : (∀ p, offset.toNat ≤ p → p < readEnd loc offset len →
        (f (p / BLOCK_SIZE)).isOk = true) ↔
          ∀ i, Covers loc offset len i → (f i).isOk = true := by
      simp only [covers_iff hlt]
      constructor
      · rintro h i ⟨p, h₁, h₂, rfl⟩
        exact h p h₁ h₂
      · exact fun h p h₁ h₂ => h _ ⟨p, h₁, h₂, rfl⟩
    rw [hcover]
    refine and_congr_right fun hall => ?_
    have hslice := reads_concatBlocks hf hlt hend fun i h₁ h₂ => hall i ⟨h₁, h₂⟩
    constructor
    · exact fun hv => hv.unique hslice
    · rintro rfl
      exact hslice
  refine ⟨fun h => readWith_empty ?_, hok, fun hoff hlen hbad => ?_⟩
  · rcases h with h | h
    · exact Or.inl (UInt64.le_iff_toNat_le.mp h)
    · exact Or.inr (by simp [h])
  · obtain ⟨i, hi, hfail⟩ := hbad
    cases hr : readWith loc f offset len with
    | ok v =>
      have hall := ((hok hoff hlen v).mp hr).1 i hi
      rw [hfail] at hall
      cases hall
    | err e => exact ⟨e, rfl⟩
    | panic => exact absurd hr (readWith_returns hret hfit hsmall)

theorem readWith_adjacent (hf : ExactBlocks loc f) (hfit : offset.toNat + len.toNat < 2 ^ 64)
    (hsmall : readEnd loc offset len - offset.toNat ≤ isizeMax) {l₁ l₂ : UInt64}
    (hsum : l₁.toNat + l₂.toNat = len.toNat) (u : Bytes) :
    readWith loc f offset len = .ok u ↔ ∃ v w, readWith loc f offset l₁ = .ok v ∧
      readWith loc f (offset + l₁) l₂ = .ok w ∧ u = v ++ w := by
  have hmid : (offset + l₁).toNat = offset.toNat + l₁.toNat := by
    rw [UInt64.toNat_add]
    omega
  have hfit₁ : offset.toNat + l₁.toNat < 2 ^ 64 := by omega
  have hsmall₁ : readEnd loc offset l₁ - offset.toNat ≤ isizeMax := by
    unfold readEnd at *
    omega
  have hread := readWith_eq_ok hf hfit hsmall (v := u)
  by_cases hin : offset.toNat + l₁.toNat ≤ loc.record.size.toNat
  · -- the cut is inside the file
    have hfit₂ : (offset + l₁).toNat + l₂.toNat < 2 ^ 64 := by omega
    have hend₁ : readEnd loc offset l₁ = (offset + l₁).toNat := by
      unfold readEnd
      omega
    have hend₂ : readEnd loc (offset + l₁) l₂ = readEnd loc offset len := by
      unfold readEnd
      omega
    have hle : (offset + l₁).toNat ≤ readEnd loc offset len := by
      unfold readEnd
      omega
    have hsmall₂ : readEnd loc (offset + l₁) l₂ - (offset + l₁).toNat ≤ isizeMax := by
      rw [hend₂]
      omega
    rw [max_eq_right (by omega)] at hread
    rw [hread]
    constructor
    · rintro ⟨hall, hu⟩
      obtain ⟨hv, hw⟩ := hu.split (by omega : offset.toNat ≤ (offset + l₁).toNat) hle
      have hv' : readWith loc f offset l₁ = .ok (u.take ((offset + l₁).toNat - offset.toNat)) := by
        rw [readWith_eq_ok hf hfit₁ hsmall₁, hend₁, max_eq_right (by omega)]
        exact ⟨fun p h₁ h₂ => hall p h₁ (by omega), hv⟩
      have hw' : readWith loc f (offset + l₁) l₂ =
          .ok (u.drop ((offset + l₁).toNat - offset.toNat)) := by
        rw [readWith_eq_ok hf hfit₂ hsmall₂, hend₂, max_eq_right hle]
        exact ⟨fun p h₁ h₂ => hall p (by omega) h₂, hw⟩
      exact ⟨_, _, hv', hw', (List.take_append_drop _ _).symm⟩
    · rintro ⟨v, w, hv, hw, rfl⟩
      obtain ⟨hall₁, hv⟩ := (readWith_eq_ok hf hfit₁ hsmall₁).mp hv
      obtain ⟨hall₂, hw⟩ := (readWith_eq_ok hf hfit₂ hsmall₂).mp hw
      rw [hend₁, max_eq_right (by omega)] at hv
      rw [hend₂, max_eq_right hle] at hw
      refine ⟨fun p h₁ h₂ => ?_, hv.append hw (by omega) hle⟩
      by_cases hp : p < (offset + l₁).toNat
      · exact hall₁ p h₁ (by omega)
      · exact hall₂ p (by omega) (by omega)
  · -- the first part reaches the end of the file and leaves nothing
    have hrest : readWith loc f (offset + l₁) l₂ = .ok [] := readWith_empty (Or.inl (by omega))
    have hend : readEnd loc offset l₁ = readEnd loc offset len := by
      unfold readEnd
      omega
    have hread₁ := readWith_eq_ok hf hfit₁ hsmall₁ (v := u)
    rw [hend, ← hread] at hread₁
    rw [← hread₁, hrest]
    constructor
    · exact fun h => ⟨u, [], h, rfl, by simp⟩
    · rintro ⟨v, w, hv, hw, rfl⟩
      cases hw
      simpa using hv

theorem readWith_length (hf : ExactBlocks loc f) (hfit : offset.toNat + len.toNat < 2 ^ 64)
    (hsmall : readEnd loc offset len - offset.toNat ≤ isizeMax) {v : Bytes}
    (h : readWith loc f offset len = .ok v) :
    v.length = readEnd loc offset len - offset.toNat := by
  obtain ⟨-, hv⟩ := (readWith_eq_ok hf hfit hsmall).mp h
  rw [hv.length]
  omega

end Exact

namespace Tree
variable {t : Tree}

theorem metaOf_size {b : ℕ} {idx : UInt32} {s : Store} {mt : Meta} {loc : FileLoc}
    (hmeta : ((t.metaOf (.node b idx)).run s).1 = .ok mt)
    (hloc : ((t.locate (.node b idx)).run s).1 = .ok loc) : mt.size = loc.record.size := by
  unfold metaOf at hmeta
  unfold locate at hloc
  rw [Call.run_bind] at hmeta hloc
  rcases hm : (t.manifest b).run s with ⟨r, s'⟩
  rw [hm] at hmeta hloc
  cases r with
  | err e => cases hmeta
  | panic => cases hmeta
  | ok m =>
    dsimp only at hmeta hloc
    rw [Call.run_bind, Call.run_lift] at hloc
    cases hn : m.node idx with
    | none =>
      rw [hn] at hloc
      cases hloc
    | some n =>
      rw [hn] at hloc
      dsimp only [Outcome.ofOption] at hloc
      split_ifs at hloc with hd
      · cases hloc
      · rw [Call.run_mapErr, mapErr_eq_ok] at hloc
        unfold nodeMeta at hmeta
        rw [hn, Option.getD_some, if_neg hd, Call.run_bind, Call.run_attempt, hloc] at hmeta
        dsimp only [Outcome.attempt] at hmeta
        rw [Call.run_bind, Call.run_lift] at hmeta
        cases hdate : t.blobDate loc.source with
        | ok date =>
          rw [hdate] at hmeta
          cases hmeta
          rfl
        | err e =>
          rw [hdate] at hmeta
          cases hmeta
        | panic =>
          rw [hdate] at hmeta
          cases hmeta

/-- For blocks whose outcomes are `f`, however the calls interleave: the read
answers the exact slice, its pieces join up, and a file read to its end has the
size that is reported for it. -/
theorem read_exact (t : Tree) (loc : FileLoc) (I : Store → Prop)
    (f : ℕ → Outcome ReadError Bytes) (hblock : ∀ i, (t.store.block loc i).Answers I (f i))
    (hf : ExactBlocks loc f) (hret : ∀ i, (f i).Returns) (offset len : UInt64)
    (hfit : offset.toNat + len.toNat < 2 ^ 64)
    (hsmall : readEnd loc offset len - offset.toNat ≤ isizeMax) :
    ∃ r, (t.store.read loc offset len).Answers I r ∧ ExactAnswer loc f offset len r ∧
      (∀ l₁ l₂ : UInt64, l₁.toNat + l₂.toNat = len.toNat →
        ∃ r₁ r₂, (t.store.read loc offset l₁).Answers I r₁ ∧
          (t.store.read loc (offset + l₁) l₂).Answers I r₂ ∧
          ∀ u, r = .ok u ↔ ∃ v w, r₁ = .ok v ∧ r₂ = .ok w ∧ u = v ++ w) ∧
      ∀ b idx s mt v, ((t.metaOf (.node b idx)).run s).1 = .ok mt →
        ((t.locate (.node b idx)).run s).1 = .ok loc → offset = 0 → loc.record.size ≤ len →
          r = .ok v → v.length = mt.size.toNat := by
  have hread (o l : UInt64) : (t.store.read loc o l).Answers I (readWith loc f o l) :=
    readWith_answers hblock o l
  refine ⟨_, hread offset len, readWith_exact hf hret hfit hsmall, fun l₁ l₂ hsum => ?_, ?_⟩
  · exact ⟨_, _, hread _ _, hread _ _, readWith_adjacent hf hfit hsmall hsum⟩
  · intro b idx s mt v hmeta hloc hoff hlen hv
    have hsize := UInt64.le_iff_toNat_le.mp hlen
    rw [readWith_length hf hfit hsmall hv, metaOf_size hmeta hloc, hoff, readEnd]
    simp only [UInt64.toNat_zero]
    omega

end Tree

section Sample

def wholeRecord : FileRecord := ⟨7, .plain, 0, 4, [⟨4, Chunk.checksum [1, 2, 3, 4]⟩]⟩

def wholeFile : MemoryDump where
  blobs := [("5_1_000000aa_x.blob".toList, (VersionImage.flat [wholeRecord] 4 none).encode)]
  dats := [("5_1_00000005_x.dat".toList, [1, 2, 3, 4])]
  keys := .empty
  cfg := .plain

set_option maxRecDepth 20000 in
theorem wholeFile_read :
    ∃ r, (wholeFile.dump.read (firstLoc wholeRecord) 0 4).Answers
        (wholeFile.dump.BlockInv (fun _ => none) (fun _ _ => True) fun _ _ => False) r ∧
      ExactAnswer (firstLoc wholeRecord)
        (wholeFile.dump.blockOf (fun _ => none) (.none 0) (firstLoc wholeRecord)) 0 4 r ∧
      r = .ok [1, 2, 3, 4] := by
  have hblock (i : ℕ) : (wholeFile.dump.block (firstLoc wholeRecord) i).Answers
      (wholeFile.dump.BlockInv (fun _ => none) (fun _ _ => True) fun _ _ => False)
      (wholeFile.dump.blockOf (fun _ => none) (.none 0) (firstLoc wholeRecord) i) :=
    Dump.block_answers (fun _ _ _ _ _ _ => trivial)
      (fun x r _ _ => Dump.blockUsing_plain rfl r i x) (fun _ _ _ hv => hv.elim)
      fun _ _ _ hplain _ => absurd rfl hplain
  have hfirst : wholeFile.dump.blockOf (fun _ => none) (.none 0) (firstLoc wholeRecord) 0 =
      .ok [1, 2, 3, 4] := by decide +kernel
  have hrest (i : ℕ) : wholeFile.dump.blockOf (fun _ => none) (.none 0) (firstLoc wholeRecord)
      (i + 1) = .err ((firstLoc wholeRecord).noSuchBlock (i + 1)) := rfl
  have hexact : ExactBlocks (firstLoc wholeRecord)
      (wholeFile.dump.blockOf (fun _ => none) (.none 0) (firstLoc wholeRecord)) := by
    intro i b hb
    cases i with
    | zero =>
      rw [hfirst] at hb
      cases hb
      rfl
    | succ i =>
      rw [hrest] at hb
      cases hb
  have hret (i : ℕ) : (wholeFile.dump.blockOf (fun _ => none) (.none 0) (firstLoc wholeRecord)
      i).Returns := by
    cases i with
    | zero =>
      rw [hfirst]
      exact returns_ok _
    | succ i =>
      rw [hrest]
      exact returns_err _
  obtain ⟨r, hr, hslice, -⟩ := Tree.read_exact ⟨wholeFile.dump⟩ (firstLoc wholeRecord) _ _ hblock
    hexact hret 0 4 (by decide) (by decide)
  refine ⟨r, hr, hslice, ?_⟩
  rw [← hr.run (Dump.BlockInv.new fun _ => trivial)]
  decide +kernel

def hugeLoc : FileLoc := ⟨0, some 0, ⟨7, .plain, 0, 2 ^ 63, []⟩, [0]⟩

def zeroBlocks (i : ℕ) : Outcome ReadError Bytes :=
  .ok (List.replicate ((hugeLoc.record.blockRange i).2 - (hugeLoc.record.blockRange i).1) 0)

theorem hugeLoc_read_panics :
    ExactBlocks hugeLoc zeroBlocks ∧ (∀ i, (zeroBlocks i).isOk = true) ∧
      (0 : UInt64).toNat + (2 ^ 63 : UInt64).toNat < 2 ^ 64 ∧
      readWith hugeLoc zeroBlocks 0 (2 ^ 63) = .panic ∧
      ((wholeFile.dump.read hugeLoc 0 (2 ^ 63)).run (Store.new wholeFile.dump fun _ => none)).1 =
        .panic := by
  refine ⟨fun i b hb => ?_, fun _ => rfl, by decide +kernel, by decide +kernel, by decide +kernel⟩
  cases hb
  simp

end Sample
end Steam2Fs
