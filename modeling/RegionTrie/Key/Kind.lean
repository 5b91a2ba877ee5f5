import RegionTrie.Key.Word
import RegionTrie.Key.Octets

/-!
# Kinds of keys

The key types as values, for programs that learn only when they run which one they deal with.

## Main definitions

* `KeyKind`: the kinds
* `KeyKind.Carrier`: the type of keys of a kind
-/

namespace RegionTrie

/-- The kinds of keys. -/
inductive KeyKind where
  | word
  | v4
  | octets
  | v6
deriving DecidableEq

namespace KeyKind

/-- The type of keys of a kind. -/
def Carrier : KeyKind → Type
  | word => UInt32
  | v4 => V4
  | octets => Octets
  | v6 => V6

instance : (kind : KeyKind) → PrefixKey kind.Carrier
  | word => inferInstanceAs (PrefixKey UInt32)
  | v4 => inferInstanceAs (PrefixKey V4)
  | octets => inferInstanceAs (PrefixKey Octets)
  | v6 => inferInstanceAs (PrefixKey V6)

end KeyKind

end RegionTrie
