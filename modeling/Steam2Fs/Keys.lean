import Steam2Fs.Codec

/-!
# Depot keys

A hash map is the list of its entries in iteration order, with distinct keys.
The built-in table is generated data of some thousands of entries; it is a
field of the store, with the order its binary search relies on.
-/

namespace Steam2Fs
open Text

structure KeyStore where
  overrides : List (UInt32 × Key)
  blobOverrides : List ((UInt32 × UInt32) × Key)
  table : List (UInt32 × Key)
  overrides_distinct : (overrides.map Prod.fst).Nodup
  blobOverrides_distinct : (blobOverrides.map Prod.fst).Nodup
  table_sorted : (table.map Prod.fst).Pairwise (· < ·)

namespace KeyStore

def get (ks : KeyStore) (depot : UInt32) : Option Key :=
  match ks.overrides.lookup depot with
  | some k => some k
  | none => ks.table.lookup depot

/-- A blob-specific override wins over the depot key. -/
def getForBlob (ks : KeyStore) (depot blobCrc : UInt32) : Option Key :=
  match ks.blobOverrides.lookup (depot, blobCrc) with
  | some k => some k
  | none => ks.get depot

/-- Every key known, with its label: overrides first, then the table. -/
def candidates (ks : KeyStore) : List (Str × Key) :=
  ks.blobOverrides.map (fun e =>
      (decimal e.1.1.toNat ++ '@' :: padZero 8 (hexLower e.1.2.toNat), e.2)) ++
    ks.overrides.map (fun e => (decimal e.1.toNat, e.2)) ++
    ks.table.map fun e => (decimal e.1.toNat, e.2)

def labelDepot (label : Str) : UInt32 :=
  let depot := ((splitOnce '@' label).map Prod.fst).getD label
  UInt32.ofNat ((fromStrRadix 10 (2 ^ 32) depot).getD 0)

end KeyStore
end Steam2Fs
