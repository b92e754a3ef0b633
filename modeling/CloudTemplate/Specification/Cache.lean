import CloudTemplate.Specification.Source
/-! A cache of specifications by region and version. A specification that is not held yet is read from
its file, and from then on it is answered as it was, whatever becomes of the file. -/
namespace CloudTemplate

structure Held where
  number : Nat
  spec : Specification
  deriving DecidableEq, Repr

structure Cache where
  root : String
  held : List ((String × String) × Held)
  count : Nat
  deriving DecidableEq, Repr

namespace Cache

def empty (root : String) : Cache := ⟨root, [], 0⟩

def path (cache : Cache) (region version : String) : String :=
  Path.join (Path.join cache.root region) (version ++ ".json")

def held? (cache : Cache) (region version : String) : Option Held :=
  (cache.held.find? fun e => e.1 == (region, version)).map Prod.snd

def contains (cache : Cache) (region version : String) : Bool := (cache.held? region version).isSome

def size (cache : Cache) : Nat := cache.held.length

def isEmpty (cache : Cache) : Bool := cache.held.isEmpty

def insert (cache : Cache) (region version : String) (spec : Specification) : Cache × Held :=
  let held : Held := ⟨cache.count, spec⟩
  let others := cache.held.filter fun e => e.1 != (region, version)
  ({ cache with held := ((region, version), held) :: others, count := cache.count + 1 }, held)

def get (cache : Cache) (files : Files) (region version : String) : Cache × Except SourceFault Held :=
  match cache.held? region version with
  | some held => (cache, .ok held)
  | none =>
    match Specification.ofFile files (cache.path region version) with
    | .error fault => (cache, .error fault)
    | .ok spec =>
      let (cache, held) := cache.insert region version spec
      (cache, .ok held)

def clear (cache : Cache) : Cache := { cache with held := [] }

end Cache

end CloudTemplate
