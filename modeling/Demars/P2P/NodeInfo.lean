import Demars.P2P.Key

/-!
# What a node says about itself

The addresses of `p2p/netaddress.go` and the `NodeInfo` of `p2p/node_info.go` that two nodes exchange. Two functions of
the package `net` are the fields of `NetLib`; what the resolver answers differs from call to call, and comes with each.
-/

namespace Demars.P2P

/-- What is taken from the package `net`. -/
structure NetLib where
  splitHostPort : Bytes → Option (Bytes × Bytes)
  parseIP : Bytes → Option Bytes

/-- `net.IP.Equal`: an address of four bytes is the same as its form of sixteen. -/
def ipEqual (ip x : Bytes) : Bool :=
  let mapped (short long : Bytes) : Bool := short.length == 4 && long == List.replicate 10 0 ++ [255, 255] ++ short
  ip == x || mapped ip x || mapped x ip

/-! ## Addresses -/

/-- `NetAddress`. An empty `IP` is the `nil` one. -/
structure NetAddress where
  ID : NodeID
  IP : Bytes
  port : Nat
deriving DecidableEq

inductive AddressFault
  | hex
  /-- `invalid hex length - got %d, expected %d` -/
  | hexLength (got : Nat)
  | hostPort
  | port

inductive NetAddressError
  | noID (addr : Bytes)
  | invalid (addr : Bytes) (err : AddressFault)
  | lookup (host : Bytes)

def idAddressString (id : NodeID) (hostPort : Bytes) : Bytes := hexString id.ID ++ ascii "@" ++ hostPort

/-- The text before a separator and the text after it. -/
def cut (sep : Bytes) : Bytes → Option (Bytes × Bytes)
  | [] => if sep.isEmpty then some ([], []) else none
  | b :: text =>
    if sep.isPrefixOf (b :: text) then some ([], (b :: text).drop sep.length)
    else (cut sep text).map fun parts => (b :: parts.1, parts.2)

/-- `removeProtocolIfDefined`: what stands between the first `://` and the next one. -/
def removeProtocolIfDefined (addr : Bytes) : Bytes :=
  match cut (ascii "://") addr with
  | none => addr
  | some (_, rest) => ((cut (ascii "://") rest).map Prod.fst).getD rest

/-- The value of a digit in `hex.DecodeString`. -/
def fromHexChar (c : UInt8) : Option UInt8 :=
  if 48 ≤ c ∧ c ≤ 57 then some (c - 48)
  else if 97 ≤ c ∧ c ≤ 102 then some (c - 97 + 10)
  else if 65 ≤ c ∧ c ≤ 70 then some (c - 65 + 10)
  else none

def hexDecode : Bytes → Option Bytes
  | [] => some []
  | [_] => none
  | high :: low :: text =>
    (fromHexChar high).bind fun h => (fromHexChar low).bind fun l => (hexDecode text).map fun bz => (h * 16 + l) :: bz

/-- `strconv.ParseUint(s, 10, 16)`. -/
def parsePort (s : Bytes) : Option Nat :=
  let n := s.foldl (fun n c => n * 10 + (c.toNat - 48)) 0
  if s ≠ [] ∧ s.all (fun c => 48 ≤ c ∧ c ≤ 57) ∧ n < 65536 then some n else none

section

variable (N : NetLib) (answer : Option Bytes)

/-- The `IP` of a host; `answer` is what `LookupIP` finds for a host that is a name. -/
def hostIP (host : Bytes) : Except NetAddressError Bytes :=
  match N.parseIP host with
  | some ip => .ok ip
  | none =>
    if host = [] then .ok []
    else match answer with
      | some ip => .ok ip
      | none => .error (.lookup host)

/-- The end of `NewNetAddressStringWithOptionalID`: host and port. -/
def withHostPort (id : NodeID) (addr : Bytes) : Except NetAddressError NetAddress := do
  match N.splitHostPort addr with
  | none => .error (.invalid addr .hostPort)
  | some (host, portStr) =>
    let ip ← hostIP N answer host
    match parsePort portStr with
    | none => .error (.invalid portStr .port)
    | some port => .ok ⟨id, ip, port⟩

/-- `NewNetAddressStringWithOptionalID`: only a text with one `@` has an id. -/
def newNetAddressStringWithOptionalID (addr : Bytes) : Except NetAddressError NetAddress :=
  let addrWithoutProtocol := removeProtocolIfDefined addr
  match addrWithoutProtocol.splitOn 64 with
  | [idStr, hostPort] =>
    match hexDecode idStr with
    | none => .error (.invalid addrWithoutProtocol .hex)
    | some idBytes =>
      if h : idBytes.length = 64 then withHostPort N answer ⟨idBytes, h⟩ hostPort
      else .error (.invalid addrWithoutProtocol (.hexLength idBytes.length))
  | _ => withHostPort N answer NodeID.zero addrWithoutProtocol

def newNetAddressString (addr : Bytes) : Except NetAddressError NetAddress :=
  if (addr.splitOn 64).length < 2 then .error (.noID addr) else newNetAddressStringWithOptionalID N answer addr

end

/-! ## Node infos -/

structure NodeInfo where
  ID : NodeID
  listenAddr : Bytes
  network : Bytes
  version : Bytes
  channels : Bytes
  moniker : Bytes
  other : List Bytes
deriving DecidableEq

inductive NodeInfoError
  /-- `info.Channels is too long (%v). Max is %v` -/
  | tooManyChannels (got : Nat)
  /-- `info.Moniker must be valid non-empty ASCII text without tabs, but got %v.` -/
  | moniker (got : Bytes)
  /-- `info.Other[%v] must be valid non-empty ASCII text without tabs, but got %v.` -/
  | other (i : Nat) (got : Bytes)
  /-- `info.Channels contains duplicate channel id %v` -/
  | duplicateChannel (ch : UInt8)
  | address (err : NetAddressError)
  /-- `Invalid version format %v` -/
  | version (version : Bytes)
  /-- `Peer is on a different major version. Got %v, expected %v` -/
  | majorVersion (got expected : Bytes)
  /-- `Peer has no common channels. Our channels: %v ; Peer channels: %v` -/
  | noCommonChannels (ours theirs : Bytes)

def maxNumChannels : Nat := 16

def isASCIIText (s : Bytes) : Bool := s ≠ [] && s.all fun b => 32 ≤ b && b ≤ 126

/-- `ASCIITrim` of a text that `IsASCIIText` accepts. -/
def asciiTrim (s : Bytes) : Bytes := s.filter (· ≠ 32)

def isShownText (s : Bytes) : Bool := isASCIIText s && asciiTrim s ≠ []

/-- The loop of `Validate` over the channels, with those seen. -/
def duplicateChannel : Bytes → Bytes → Option UInt8
  | _, [] => none
  | seen, ch :: channels => if ch ∈ seen then some ch else duplicateChannel (ch :: seen) channels

def splitVersion (version : Bytes) : Except NodeInfoError (Bytes × Bytes × Bytes) :=
  match version.splitOn 46 with
  | [major, minor, revision] => .ok (major, minor, revision)
  | _ => .error (.version version)

namespace NodeInfo

def validate (N : NetLib) (answer : Option Bytes) (info : NodeInfo) : Except NodeInfoError Unit :=
  if maxNumChannels < info.channels.length then .error (.tooManyChannels info.channels.length)
  else if !isShownText info.moniker then .error (.moniker info.moniker)
  else
    match info.other.zipIdx.find? fun s => !isShownText s.1 with
    | some (s, i) => .error (.other i s)
    | none =>
      match duplicateChannel [] info.channels with
      | some ch => .error (.duplicateChannel ch)
      | none =>
        match newNetAddressString N answer (idAddressString info.ID info.listenAddr) with
        | .error err => .error (.address err)
        | .ok _ => .ok ()

def compatibleWith (info other : NodeInfo) : Except NodeInfoError Unit := do
  let (iMajor, _) ← splitVersion info.version
  let (oMajor, _) ← splitVersion other.version
  if iMajor ≠ oMajor then .error (.majorVersion oMajor iMajor)
  else if info.channels = [] then .ok ()
  else if info.channels.any fun ch => ch ∈ other.channels then .ok ()
  else .error (.noCommonChannels info.channels other.channels)

/-- `NodeInfo.NetAddress`: a text that is no address panics, an unknown host gives `nil`. -/
def netAddress (N : NetLib) (answer : Option Bytes) (info : NodeInfo) : Option NetAddress :=
  (newNetAddressString N answer (idAddressString info.ID info.listenAddr)).toOption

end NodeInfo

end Demars.P2P
