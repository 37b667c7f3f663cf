import Steam2Fs.Lib.Walk
import Steam2Fs.Memory
import Steam2Fs.StoreBlobs

/-!
# Version chains and file tables

`chain` walks the parent links up from a blob, and `buildTable` goes down the
chain again, reusing the tables it finds cached on the way. A cached table is
always the one made of the layers of its own blob's chain, so it does not
matter which of them a call finds, which are evicted while it runs, or who put
them there: a lookup answers from the blob nearest to the requested one.
-/

namespace Steam2Fs
open Outcome Walk Relation

def CHAIN_LIMIT : ℕ := 100000

section Chain
variable {m : Type → Type} [Monad m] (parent : ℕ → m (Option ℕ))

/-- The loop of `chain`. It looks for a parent once for each length of `out`
up to the limit, which is its fuel. -/
def chainLoop : ℕ → List ℕ → ℕ → m (List ℕ)
  | 0, out, _ => pure out
  | fuel + 1, out, cur => do
    match ← parent cur with
    | none => pure out
    | some p =>
      if p ∈ out ∨ out.length > CHAIN_LIMIT then pure out
      else chainLoop fuel (out ++ [p]) p

def chainWith (id : ℕ) : m (List ℕ) := do
  let out ← chainLoop parent (CHAIN_LIMIT + 1) [id] id
  pure out.reverse

end Chain

def blockOffsets : UInt64 → List Block → List UInt64
  | off, [] => [off]
  | off, b :: bs => off :: blockOffsets (off + b.compressedSize.toUInt64) bs

namespace Dump
variable (d : Dump)

/-- The parent a blob records, or the only blob of that version. -/
def parentOf (id : ℕ) (p : ParsedBlob) : Outcome ReadError (Option ℕ) := do
  let entry ← d.blob id
  match p.info.prev with
  | none => .ok none
  | some (pver, pcrc) =>
    match d.index.findBlob entry.depot pver pcrc with
    | some q => .ok (some q)
    | none => match d.index.blobsWithVersion entry.depot pver with
      | [only] => .ok (some only)
      | _ => .ok none

def parent (id : ℕ) : StoreCall (Option ℕ) := do
  let p ← d.parsed id
  Call.lift (d.parentOf id p)

def chain (id : ℕ) : StoreCall (List ℕ) := chainWith d.parent id

def locOf (id : ℕ) (entry : BlobEntry) (p : ParsedBlob) (r : FileRecord) : FileLoc :=
  ⟨id, d.index.findDat entry.depot entry.version p.info.datCrc, r, blockOffsets r.offset r.blocks⟩

def ownRecords (id : ℕ) (p : ParsedBlob) : Outcome ReadError (List (UInt32 × FileLoc)) := do
  let entry ← d.blob id
  .ok (p.records.foldl (fun own r => (r.fileId, d.locOf id entry p r) :: own) [])

def ownTable (id : ℕ) (parent : Option FileTable) : StoreCall FileTable := do
  let p ← d.parsed id
  let own ← Call.lift (d.ownRecords id p)
  pure (.layer own parent)

def getTable (id : ℕ) : StoreCall (Option FileTable) :=
  Call.atomic fun s => (Lru.get id s.tables, { s with tables := Lru.touch id s.tables })

def putTable (id : ℕ) (t : FileTable) : StoreCall Unit :=
  Call.modify fun s => { s with tables := Lru.put TABLE_CAPACITY id t s.tables }

def buildLoop : List ℕ → Option FileTable → StoreCall (Option FileTable)
  | [], parent => pure parent
  | b :: bs, parent => do
    match ← getTable b with
    | some t => buildLoop bs (some t)
    | none =>
      let t ← d.ownTable b parent
      putTable b t
      buildLoop bs (some t)

def buildTable (id : ℕ) : StoreCall FileTable := do
  match ← getTable id with
  | some t => pure t
  | none =>
    let chain ← d.chain id
    match ← d.buildLoop chain none with
    | some t => pure t
    | none => Call.lift (.err (.other (.msg "empty version chain")))

def table (id : ℕ) : StoreCall FileTable := do
  match ← getTable id with
  | some t => pure t
  | none => d.buildTable id

def locate (id : ℕ) (fileId : UInt32) : StoreCall FileLoc := do
  let t ← d.table id
  Call.lift (Outcome.ofOption (.missingRecord fileId) (t.get fileId))

/-! ### The pure view -/

section Pure
variable (cacheDir : ℕ → Option Bytes)

def up (id : ℕ) : Option ℕ :=
  match d.loaded cacheDir id >>= d.parentOf id with
  | .ok o => o
  | _ => none

def layerOf (id : ℕ) : List (UInt32 × FileLoc) :=
  match d.loaded cacheDir id >>= d.ownRecords id with
  | .ok own => own
  | _ => []

def lineage (id : ℕ) : List ℕ := trail (d.up cacheDir) (CHAIN_LIMIT + 1) id

def tableOf : List ℕ → Option FileTable
  | [] => none
  | b :: bs => some (.layer (d.layerOf cacheDir b) (tableOf bs))

def AllParse : Prop :=
  ∀ id < d.index.blobs.length, ∃ p, d.loaded cacheDir id = .ok p

/-- Parent links are acyclic, and no blob has more ancestors than `chain` follows. -/
def Bounded : Prop :=
  ∀ id < d.index.blobs.length, Acyclic (d.up cacheDir) id ∧
    {a | TransGen (Link (d.up cacheDir)) id a}.encard ≤ CHAIN_LIMIT

end Pure

section Facts
variable {d} {cacheDir : ℕ → Option Bytes} {id : ℕ}

theorem parentOf_ok {p : ParsedBlob} (hid : id < d.index.blobs.length) :
    ∃ o, d.parentOf id p = .ok o ∧ ∀ q ∈ o, q < d.index.blobs.length := by
  unfold parentOf
  rw [blob_eq_ok.mpr (List.getElem?_eq_getElem hid), ok_bind]
  split
  · exact ⟨none, rfl, by simp⟩
  · split
    · next q hq => exact ⟨some q, rfl, fun r hr => by cases hr; exact d.index_inRange.findBlob hq⟩
    · split
      · next only honly =>
        refine ⟨some only, rfl, fun r hr => ?_⟩
        cases hr
        exact d.index_inRange.blobsWithVersion (honly ▸ List.mem_singleton_self _)
      · exact ⟨none, rfl, by simp⟩

theorem links_of_loaded {p : ParsedBlob} (hp : d.loaded cacheDir id = .ok p)
    (hid : id < d.index.blobs.length) :
    d.parentOf id p = .ok (d.up cacheDir id) ∧ d.ownRecords id p = .ok (d.layerOf cacheDir id) ∧
      ∀ q ∈ d.up cacheDir id, q < d.index.blobs.length := by
  obtain ⟨o, ho, hrange⟩ := parentOf_ok (p := p) hid
  have hup : d.up cacheDir id = o := by
    unfold up
    rw [hp, ok_bind, ho]
  have hown : ∃ own, d.ownRecords id p = .ok own := by
    unfold ownRecords
    rw [blob_eq_ok.mpr (List.getElem?_eq_getElem hid), ok_bind]
    exact ⟨_, rfl⟩
  obtain ⟨own, hown⟩ := hown
  have hlayer : d.layerOf cacheDir id = own := by
    unfold layerOf
    rw [hp, ok_bind, hown]
  exact ⟨hup ▸ ho, hlayer ▸ hown, hup ▸ hrange⟩

theorem AllParse.links (hall : d.AllParse cacheDir) (hid : id < d.index.blobs.length) :
    ∃ p, d.loaded cacheDir id = .ok p ∧ d.parentOf id p = .ok (d.up cacheDir id) ∧
      d.ownRecords id p = .ok (d.layerOf cacheDir id) ∧
      ∀ q ∈ d.up cacheDir id, q < d.index.blobs.length := by
  obtain ⟨p, hp⟩ := hall id hid
  exact ⟨p, hp, links_of_loaded hp hid⟩

theorem Bounded.stops (hb : d.Bounded cacheDir) (hid : id < d.index.blobs.length) :
    after (d.up cacheDir) (CHAIN_LIMIT + 1) id = none :=
  stops_of_encard_le (hb id hid).1 (hb id hid).2

theorem reaches_inRange (hall : d.AllParse cacheDir) (hid : id < d.index.blobs.length) {b : ℕ}
    (h : ReflTransGen (Link (d.up cacheDir)) id b) : b < d.index.blobs.length := by
  induction h with
  | refl => exact hid
  | tail _ hlink ih =>
    obtain ⟨p, -, -, -, hrange⟩ := hall.links ih
    exact hrange _ hlink

theorem lineage_inRange (hall : d.AllParse cacheDir) (hid : id < d.index.blobs.length) {b : ℕ}
    (h : b ∈ d.lineage cacheDir id) : b < d.index.blobs.length := by
  obtain ⟨i, -, hi⟩ := mem_trail h
  exact reaches_inRange hall hid (reaches_iff.mpr ⟨i, hi⟩)

theorem lineage_suffix (hb : d.Bounded cacheDir) (hid : id < d.index.blobs.length) {b : ℕ}
    {l₁ l₂ : List ℕ} (h : d.lineage cacheDir id = l₁ ++ b :: l₂) :
    d.lineage cacheDir b = b :: l₂ :=
  trail_suffix (hb.stops hid) h

end Facts

section Answers
variable {d} {cacheDir : ℕ → Option Bytes} {I : Store → Prop}

theorem chainLoop_answers (hall : d.AllParse cacheDir) {par : ℕ → StoreCall (Option ℕ)}
    (hpar : ∀ b < d.index.blobs.length, (par b).Answers I (.ok (d.up cacheDir b)))
    {fuel : ℕ} {out : List ℕ} {cur : ℕ} (hcur : cur < d.index.blobs.length)
    (hac : Acyclic (d.up cacheDir) cur) (hstop : after (d.up cacheDir) fuel cur = none)
    (hfuel : fuel + out.length = CHAIN_LIMIT + 2)
    (hnew : ∀ b, TransGen (Link (d.up cacheDir)) cur b → b ∉ out) :
    (chainLoop par fuel out cur).Answers I
      (.ok (out ++ (trail (d.up cacheDir) fuel cur).tail)) := by
  induction fuel generalizing out cur with
  | zero => simp [after] at hstop
  | succ fuel ih =>
    refine (hpar cur hcur).bind (g := fun _ => .ok _) fun o ho => ?_
    cases ho
    cases hup : d.up cacheDir cur with
    | none =>
      simp only [trail, hup, Option.map_none, Option.getD_none, List.tail_cons, List.append_nil]
      exact Call.answers_pure out
    | some p =>
      have hlink : Link (d.up cacheDir) cur p := hup
      rw [after_succ hup] at hstop
      have hpos : fuel ≠ 0 := by
        rintro rfl
        simp [after] at hstop
      have hp : p ∉ out := hnew p (.single hlink)
      have hlim : ¬ out.length > CHAIN_LIMIT := by omega
      have htrail : ∃ rest, trail (d.up cacheDir) fuel p = p :: rest := by
        obtain ⟨k, rfl⟩ := Nat.exists_eq_succ_of_ne_zero hpos
        exact ⟨_, rfl⟩
      obtain ⟨rest, hrest⟩ := htrail
      simp only [hp, hlim, or_self, ↓reduceIte]
      have hnew' : ∀ b, TransGen (Link (d.up cacheDir)) p b → b ∉ out ++ [p] := by
        intro b hb hmem
        rcases List.mem_append.mp hmem with hmem | hmem
        · exact hnew b (.head hlink hb) hmem
        · rw [List.mem_singleton.mp hmem] at hb
          exact hac p (.single hlink) hb
      have hlen : fuel + (out ++ [p]).length = CHAIN_LIMIT + 2 := by
        rw [List.length_append, List.length_singleton]
        omega
      have hrec := ih (reaches_inRange hall hcur (.single hlink)) (hac.tail hup) hstop hlen hnew'
      rw [hrest, List.tail_cons, List.append_assoc] at hrec
      rw [trail_succ_of_some hup, List.tail_cons, hrest]
      exact hrec

theorem chainWith_answers (hall : d.AllParse cacheDir) (hb : d.Bounded cacheDir)
    {par : ℕ → StoreCall (Option ℕ)}
    (hpar : ∀ b < d.index.blobs.length, (par b).Answers I (.ok (d.up cacheDir b)))
    {id : ℕ} (hid : id < d.index.blobs.length) :
    (chainWith par id).Answers I (.ok (d.lineage cacheDir id).reverse) := by
  have hac := (hb id hid).1
  have hnew : ∀ b, TransGen (Link (d.up cacheDir)) id b → b ∉ [id] := by
    intro b hlink hmem
    rw [List.mem_singleton.mp hmem] at hlink
    exact hac id .refl hlink
  have hloop := chainLoop_answers hall hpar hid hac (hb.stops hid) rfl hnew
  have hhead : [id] ++ (trail (d.up cacheDir) (CHAIN_LIMIT + 1) id).tail =
      d.lineage cacheDir id := rfl
  rw [hhead] at hloop
  exact hloop.bind (g := fun out => .ok out.reverse) fun _ _ => Call.answers_pure _

theorem parent_answers (hI : ∀ b, (d.parsed b).Answers I (d.loaded cacheDir b))
    {id : ℕ} (hp : ∃ p, d.loaded cacheDir id = .ok p) (hid : id < d.index.blobs.length) :
    (d.parent id).Answers I (.ok (d.up cacheDir id)) := by
  obtain ⟨p, hp⟩ := hp
  obtain ⟨hparent, -⟩ := links_of_loaded hp hid
  have h := hI id
  rw [hp] at h
  rw [← hparent]
  exact h.bind (g := d.parentOf id) fun q _ => Call.answers_lift _

theorem ownTable_answers (hI : ∀ b, (d.parsed b).Answers I (d.loaded cacheDir b))
    (hall : d.AllParse cacheDir) {id : ℕ} (hid : id < d.index.blobs.length)
    (parent : Option FileTable) :
    (d.ownTable id parent).Answers I (.ok (.layer (d.layerOf cacheDir id) parent)) := by
  obtain ⟨p, hp, -, hown, -⟩ := hall.links hid
  have h := hI id
  rw [hp] at h
  refine h.bind (g := fun _ => .ok _) fun q hq => ?_
  cases hq
  rw [hown]
  exact Call.answers_pure (FileTable.layer (d.layerOf cacheDir id) parent)

end Answers

/-! ### What the table cache holds -/

section Tables
variable (cacheDir : ℕ → Option Bytes)

def TablesOk (s : Store) : Prop :=
  ∀ e ∈ s.tables, d.tableOf cacheDir (d.lineage cacheDir e.1) = some e.2

def TableInv (s : Store) : Prop := d.Loads cacheDir s ∧ d.TablesOk cacheDir s

variable {d} {cacheDir} {id : ℕ}

theorem TableInv.new : d.TableInv cacheDir (Store.new d cacheDir) :=
  ⟨.new, by simp [TablesOk, Store.new]⟩

theorem parsed_answers_tables (id : ℕ) :
    (d.parsed id).Answers (d.TableInv cacheDir) (d.loaded cacheDir id) := by
  refine parsed_answers.frame parsed_within fun s s' hframe hs => ?_
  unfold TablesOk
  rw [hframe.1]
  exact hs

theorem chain_answers (hall : d.AllParse cacheDir) (hb : d.Bounded cacheDir)
    (hid : id < d.index.blobs.length) :
    (d.chain id).Answers (d.TableInv cacheDir) (.ok (d.lineage cacheDir id).reverse) :=
  chainWith_answers hall hb
    (fun b hbr => parent_answers parsed_answers_tables (hall b hbr) hbr) hid

theorem getTable_keeps :
    (getTable id).Keeps (d.TableInv cacheDir) fun r => r = .ok none ∨
      ∃ t, r = .ok (some t) ∧ d.tableOf cacheDir (d.lineage cacheDir id) = some t := by
  refine Call.keeps_atomic fun s hs => ⟨⟨hs.1.of_eq (fun _ he => he) rfl, ?_⟩, ?_⟩
  · exact fun e he => hs.2 e (Lru.mem_touch he)
  · cases hg : Lru.get id s.tables with
    | none => exact Or.inl rfl
    | some t => exact Or.inr ⟨t, rfl, hs.2 (id, t) (Lru.mem_of_get hg)⟩

theorem putTable_answers {t : FileTable}
    (h : d.tableOf cacheDir (d.lineage cacheDir id) = some t) :
    (putTable id t).Answers (d.TableInv cacheDir) (.ok ()) := by
  refine Call.keeps_atomic fun s hs => ⟨⟨hs.1.of_eq (fun _ he => he) rfl, fun e he => ?_⟩, rfl⟩
  rcases Lru.mem_put he with rfl | he
  · exact h
  · exact hs.2 e he

theorem buildLoop_answers (hall : d.AllParse cacheDir) (hb : d.Bounded cacheDir)
    (hid : id < d.index.blobs.length) {bs pre : List ℕ}
    (h : d.lineage cacheDir id = bs.reverse ++ pre) :
    (d.buildLoop bs (d.tableOf cacheDir pre)).Answers (d.TableInv cacheDir)
      (.ok (d.tableOf cacheDir (d.lineage cacheDir id))) := by
  induction bs generalizing pre with
  | nil =>
    rw [h]
    exact Call.answers_pure _
  | cons b bs ih =>
    rw [List.reverse_cons, List.append_assoc, List.singleton_append] at h
    have hlin := lineage_suffix hb hid h
    have hbr : b < d.index.blobs.length := lineage_inRange hall hid (by rw [h]; simp)
    refine getTable_keeps.bind (fun o ho => ?_) (by simp) (by simp)
    rcases ho with ho | ⟨t, ho, ht⟩
    · cases ho
      have htab : d.tableOf cacheDir (d.lineage cacheDir b) =
          some (.layer (d.layerOf cacheDir b) (d.tableOf cacheDir pre)) := by
        rw [hlin]
        rfl
      have hown := ownTable_answers parsed_answers_tables hall hbr (d.tableOf cacheDir pre)
      refine hown.bind (g := fun _ => .ok _) fun t ht => ?_
      cases ht
      refine (putTable_answers htab).bind (g := fun _ => .ok _) fun _ _ => ?_
      exact ih h
    · cases ho
      rw [hlin] at ht
      have hrec := ih h
      rwa [ht] at hrec

theorem tableOf_isSome {l : List ℕ} (h : l ≠ []) : ∃ t, d.tableOf cacheDir l = some t := by
  cases l with
  | nil => exact absurd rfl h
  | cons b bs => exact ⟨_, rfl⟩

theorem table_answers (hall : d.AllParse cacheDir) (hb : d.Bounded cacheDir)
    (hid : id < d.index.blobs.length) :
    ∃ t, d.tableOf cacheDir (d.lineage cacheDir id) = some t ∧
      (d.table id).Answers (d.TableInv cacheDir) (.ok t) := by
  obtain ⟨t, ht⟩ : ∃ t, d.tableOf cacheDir (d.lineage cacheDir id) = some t :=
    tableOf_isSome (by simp [lineage, trail])
  have hbuild : (d.buildTable id).Answers (d.TableInv cacheDir) (.ok t) := by
    refine getTable_keeps.bind (fun o ho => ?_) (by simp) (by simp)
    rcases ho with ho | ⟨t', ho, ht'⟩
    · cases ho
      have hchain := chain_answers hall hb hid
      refine hchain.bind (g := fun _ => .ok t) fun chain hc => ?_
      cases hc
      have hloop : (d.buildLoop (d.lineage cacheDir id).reverse none).Answers
          (d.TableInv cacheDir) (.ok (some t)) := by
        have hall' : d.lineage cacheDir id = (d.lineage cacheDir id).reverse.reverse ++ [] := by
          simp
        rw [← ht]
        exact buildLoop_answers hall hb hid hall'
      refine hloop.bind (g := fun _ => .ok t) fun o ho => ?_
      cases ho
      exact Call.answers_pure t
    · cases ho
      rw [ht] at ht'
      cases ht'
      exact Call.answers_pure t
  refine ⟨t, ht, getTable_keeps.bind (fun o ho => ?_) (by simp) (by simp)⟩
  rcases ho with ho | ⟨t', ho, ht'⟩
  · cases ho
    exact hbuild
  · cases ho
    rw [ht] at ht'
    cases ht'
    exact Call.answers_pure t

/-- The last record of blob `b` with this file id, as a location in `b`'s dat. -/
def recordIn (d : Dump) (cacheDir : ℕ → Option Bytes) (fileId : UInt32) (b : ℕ) :
    Option FileLoc := do
  let entry ← d.index.blobs[b]?
  match d.loaded cacheDir b with
  | .ok p => (p.records.reverse.find? fun r => r.fileId = fileId).map (d.locOf b entry p)
  | _ => none

theorem lookup_map_find {β : Type} (l : List β) (key : β → UInt32) (g : β → FileLoc)
    (fileId : UInt32) :
    (l.map fun r => (key r, g r)).lookup fileId =
      (l.find? fun r => key r = fileId).map g := by
  induction l with
  | nil => rfl
  | cons r rs ih =>
    by_cases hr : key r = fileId
    · simp [hr]
    · have hne : (fileId == key r) = false := by simpa using Ne.symm hr
      simp [hr, hne, List.lookup_cons, ih]

theorem layerOf_lookup (hall : d.AllParse cacheDir) (hid : id < d.index.blobs.length)
    (fileId : UInt32) :
    (d.layerOf cacheDir id).lookup fileId = d.recordIn cacheDir fileId id := by
  obtain ⟨p, hp, -, hown, -⟩ := hall.links hid
  have hentry := List.getElem?_eq_getElem hid
  unfold ownRecords at hown
  rw [blob_eq_ok.mpr hentry, ok_bind, ← List.foldr_reverse, List.foldr_cons_eq_append,
    List.append_nil] at hown
  have hlayer := (Outcome.ok.inj hown).symm
  rw [hlayer, lookup_map_find]
  unfold recordIn
  rw [hentry, hp]
  rfl

theorem tableOf_get (hall : d.AllParse cacheDir) {l : List ℕ}
    (hl : ∀ b ∈ l, b < d.index.blobs.length) {t : FileTable} (ht : d.tableOf cacheDir l = some t)
    (fileId : UInt32) : t.get fileId = l.findSome? (d.recordIn cacheDir fileId) := by
  induction l generalizing t with
  | nil => cases ht
  | cons b bs ih =>
    have hlook := layerOf_lookup hall (hl b (by simp)) fileId
    have hbs : ∀ c ∈ bs, c < d.index.blobs.length := fun c hc => hl c (by simp [hc])
    cases ht
    rw [List.findSome?_cons, ← hlook]
    cases htail : d.tableOf cacheDir bs with
    | none =>
      have hnil : bs = [] := by
        by_contra hne
        obtain ⟨t, ht⟩ : ∃ t, d.tableOf cacheDir bs = some t := tableOf_isSome hne
        rw [htail] at ht
        cases ht
      rw [hnil, FileTable.layer, FileTable.get]
      cases (d.layerOf cacheDir b).lookup fileId <;> rfl
    | some t' =>
      rw [FileTable.layer, FileTable.get, ih hbs htail]
      cases (d.layerOf cacheDir b).lookup fileId <;> rfl

def Evicts (s s' : Store) : Prop :=
  ∃ kept, kept.Sublist s.tables ∧ s' = { s with tables := kept }

theorem Evicts.keeps {s s' : Store} (h : Evicts s s') (hs : d.TableInv cacheDir s) :
    d.TableInv cacheDir s' := by
  obtain ⟨kept, hsub, rfl⟩ := h
  exact ⟨hs.1.of_eq (fun _ he => he) rfl, fun e he => hs.2 e (hsub.subset he)⟩

theorem recordIn_eq_none (hid : id < d.index.blobs.length) {p : ParsedBlob}
    (hp : d.loaded cacheDir id = .ok p) (fileId : UInt32) :
    d.recordIn cacheDir fileId id = none ↔ ∀ r ∈ p.records, r.fileId ≠ fileId := by
  unfold recordIn
  rw [List.getElem?_eq_getElem hid, hp]
  simp [List.find?_eq_none]

/-- Whatever tables were requested before or are being requested now, and
whatever has been evicted, a finished `table` call gives nearest-ancestor
semantics over the chain of its blob. -/
theorem table_nearest_ancestor (d : Dump) (cacheDir : ℕ → Option Bytes)
    (hall : d.AllParse cacheDir) (hb : d.Bounded cacheDir)
    (pool : Pool Store ℕ (Outcome ReadError FileTable))
    (hpool : Pool.Reachable d.table {b | b < d.index.blobs.length} Evicts
      (Store.new d cacheDir) pool)
    (id : ℕ) (r : Outcome ReadError FileTable) (hr : pool.Answered id r) :
    ∃ chain t, ((d.chain id).run (Store.new d cacheDir)).1 = .ok chain ∧ r = .ok t ∧
      ∀ fileId, t.get fileId = chain.reverse.findSome? (d.recordIn cacheDir fileId) ∧
        (t.get fileId = none ↔ ∀ b ∈ chain, ∀ p, d.loaded cacheDir b = .ok p →
          ∀ rec ∈ p.records, rec.fileId ≠ fileId) := by
  have hprog : ∀ b ∈ {b | b < d.index.blobs.length}, (d.table b).Keeps (d.TableInv cacheDir)
      fun a => b < d.index.blobs.length ∧
        ∃ t, d.tableOf cacheDir (d.lineage cacheDir b) = some t ∧ a = .ok t := by
    intro b hbr
    obtain ⟨t, ht, hans⟩ := table_answers hall hb hbr
    exact Call.Keeps.mono hans fun a ha => ⟨hbr, t, ht, ha⟩
  obtain ⟨hid, t, ht, hrt⟩ := Pool.Reachable.answered hprog (fun _ _ he => he.keeps) TableInv.new
    hpool hr
  have hchain := chain_answers hall hb hid
  have hrange : ∀ b ∈ d.lineage cacheDir id, b < d.index.blobs.length :=
    fun b hbm => lineage_inRange hall hid hbm
  refine ⟨_, t, hchain.run TableInv.new, hrt, fun fileId => ?_⟩
  have hget := tableOf_get hall hrange ht fileId
  rw [List.reverse_reverse]
  refine ⟨hget, ?_⟩
  rw [hget, List.findSome?_eq_none_iff]
  simp only [List.mem_reverse]
  constructor
  · intro h b hbm p hp
    exact (recordIn_eq_none (hrange b hbm) hp fileId).mp (h b hbm)
  · intro h b hbm
    obtain ⟨p, hp⟩ := hall b (hrange b hbm)
    exact (recordIn_eq_none (hrange b hbm) hp fileId).mpr (h b hbm p hp)

end Tables
end Dump

section Sample

def firstLoc (r : FileRecord) : FileLoc := ⟨0, some 0, r, blockOffsets r.offset r.blocks⟩

def twoVersions : MemoryDump where
  blobs := [("5_1_000000aa_x.blob".toList,
      (VersionImage.flat [⟨7, .plain, 0, 4, [⟨4, 0⟩]⟩] 4 none).encode),
    ("5_2_000000bb_x.blob".toList,
      (VersionImage.flat [⟨8, .plain, 0, 4, [⟨4, 0⟩]⟩] 4 (some (1, 0xaa))).encode)]
  dats := [("5_1_00000005_x.dat".toList, [1, 2, 3, 4])]
  keys := .empty
  cfg := .plain

set_option maxRecDepth 20000 in
theorem twoVersions_tables :
    ∃ pool r, Pool.Reachable twoVersions.dump.table {b | b < twoVersions.dump.index.blobs.length}
        Dump.Evicts (Store.new twoVersions.dump fun _ => none) pool ∧
      pool.Answered 1 r ∧
      ∃ chain t, ((twoVersions.dump.chain 1).run (Store.new twoVersions.dump fun _ => none)).1 =
          .ok chain ∧ r = .ok t ∧
        ∀ fileId, t.get fileId =
            chain.reverse.findSome? (twoVersions.dump.recordIn (fun _ => none) fileId) ∧
          (t.get fileId = none ↔ ∀ b ∈ chain, ∀ p,
            twoVersions.dump.loaded (fun _ => none) b = .ok p →
              ∀ rec ∈ p.records, rec.fileId ≠ fileId) := by
  obtain ⟨hlen, hfacts⟩ : twoVersions.dump.index.blobs.length = 2 ∧
      ∀ id < 2, (twoVersions.dump.loaded (fun _ => none) id).isOk ∧
        after (twoVersions.dump.up fun _ => none) 2 id = none := by
    decide +kernel
  have hall : twoVersions.dump.AllParse fun _ => none := by
    intro id hid
    rw [hlen] at hid
    exact isOk_iff.mp (hfacts id hid).1
  have hstop : ∀ id < 2, after (twoVersions.dump.up fun _ => none) 2 id = none :=
    fun id hid => (hfacts id hid).2
  have hb : twoVersions.dump.Bounded fun _ => none := by
    intro id hid
    rw [hlen] at hid
    exact ⟨acyclic_of_stops (hstop id hid),
      (encard_le_of_stops (hstop id hid)).trans (by unfold CHAIN_LIMIT; norm_num)⟩
  have h1 : 1 ∈ {b | b < twoVersions.dump.index.blobs.length} := by
    show 1 < twoVersions.dump.index.blobs.length
    omega
  obtain ⟨pool, hreach, hans⟩ := Pool.Reachable.first_call _ h1
  exact ⟨pool, _, hreach, hans, Dump.table_nearest_ancestor _ _ hall hb pool hreach 1 _ hans⟩

end Sample
end Steam2Fs
