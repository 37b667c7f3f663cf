import Steam2Fs.Encode
import Steam2Fs.Store

/-!
# Dumps held in memory

A dump given by the contents of its files, read through a backend that serves
exact slices of them. Its blob names carry no 64-digit hash, so blobs are
checked by size; there is no dates file.
-/

namespace Steam2Fs
open Text

structure MemoryDump where
  blobs : List (Str × Bytes)
  dats : List (Str × Bytes)
  keys : KeyStore
  cfg : StoreConfig

namespace MemoryDump

def listing (files : List (Str × Bytes)) : List DirEntry :=
  files.map fun f => ⟨f.1, UInt64.ofNat f.2.length, false⟩

def file (m : MemoryDump) (path : Str) : Option Bytes :=
  (m.blobs.map (fun f => ("blobs/".toList ++ f.1, f.2)) ++
    m.dats.map fun f => ("dats/".toList ++ f.1, f.2)).lookup path

def dump (m : MemoryDump) : Dump where
  codec := .stored zeroKeyStream
  blobEntries := listing m.blobs
  datEntries := listing m.dats
  dates := fun _ => none
  keys := m.keys
  cfg := m.cfg
  readAll path := match m.file path with
    | some bytes => .ok bytes
    | none => .error "no such file"
  readAt path offset len := match m.file path with
    | some bytes => .ok ((bytes.drop offset).take len)
    | none => .error "no such file"
  sha256Hex := fun _ => []
  cacheWritable := fun _ => true

end MemoryDump

def KeyStore.empty : KeyStore := ⟨[], [], [], by simp, by simp, by simp⟩

def StoreConfig.plain : StoreConfig := ⟨false, 1048576, 1048576, true, false⟩

end Steam2Fs
