import Demars.Types.Block

/-!
# Node ids

`NodeID` of `p2p/netaddress.go` with its text, and `PubKeyToID` of `p2p/key.go`.
-/

namespace Demars

structure NodeID where
  ID : Bytes
  length_ID : ID.length = 64
deriving DecidableEq

/-- `p2p.NodeID` with every byte zero, which stands for no node. -/
def NodeID.zero : NodeID := ⟨List.replicate 64 0, rfl⟩

def nodeOf (b : UInt8) : NodeID := ⟨b :: List.replicate 63 0, rfl⟩

def NodeID.segmentID (n : NodeID) : Bytes := (hexString n.ID).take 2

/-- `PubKeyToID`: the encoded key, cut or filled up with zeros. -/
def pubKeyToID (P : Primitives) (pubKey : PubKey) : NodeID := ⟨padTo 64 (P.pubKeyBytes pubKey), length_padTo 64 _⟩

end Demars
