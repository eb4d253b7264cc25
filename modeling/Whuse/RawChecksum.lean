import Whuse.SectorReads

/-! Packets written to raw sockets: the checksum that is filled in, and who receives them. -/
namespace RawChecksum

open ByteFields List

structure RawSocketState where
  family : ℕ
  protocol : ℕ
  boundPath : Option (List UInt8)
  checksumOffset : Option ℕ
  icmp6Filter : List UInt32
  inbox : List (List UInt8)

def einval : ℕ := 22

/-- With the higher byte first. -/
def word (a b : UInt8) : ℕ := a.toNat * 2 ^ 8 + b.toNat

def checksumAdd (sum : ℕ) : List UInt8 → ℕ
  | [] => sum
  | [a] => (sum + word a 0) % 2 ^ 32
  | a :: b :: rest => checksumAdd ((sum + word a b) % 2 ^ 32) rest

def checksumFinish (sum : ℕ) : ℕ :=
  if sum / 2 ^ 16 = 0 then 2 ^ 16 - 1 - sum else checksumFinish (sum % 2 ^ 16 + sum / 2 ^ 16)
termination_by sum
decreasing_by omega

/-- From `::1` to `::1`. -/
def pseudoHeader (nextHeader len : ℕ) : List UInt8 :=
  replicate 15 0 ++ 1 :: replicate 15 0 ++ 1 :: (leBytes 4 len).reverse ++
    [0, 0, 0, UInt8.ofNat nextHeader]

def ipv6RawChecksum (nextHeader : ℕ) (packet : List UInt8) : ℕ :=
  checksumFinish (checksumAdd (checksumAdd 0 (pseudoHeader nextHeader packet.length)) packet)

def fillChecksum (state : RawSocketState) (data : List UInt8) : Except ℕ (List UInt8) :=
  match state.checksumOffset with
  | none => .ok data
  | some offset =>
    if data.length ≤ offset + 1 then .error einval
    else
      let packet := put data offset [0, 0]
      let checksum := ipv6RawChecksum state.protocol packet
      .ok (put packet offset [UInt8.ofNat (checksum / 2 ^ 8), UInt8.ofNat checksum])

def receives (state peer : RawSocketState) (packet : List UInt8) : Bool :=
  let sendType := packet.head?.getD 0
  peer.family == state.family && peer.protocol == state.protocol &&
    (state.boundPath.isNone || peer.boundPath.isNone || state.boundPath == peer.boundPath) &&
    !(state.protocol == 58 && peer.icmp6Filter[sendType.toNat / 32]?.any fun word =>
      word &&& (1 <<< UInt32.ofNat (sendType.toNat % 32)) != 0)

def deliver (state : RawSocketState) (packet : List UInt8) (peer : RawSocketState) :
    RawSocketState :=
  if receives state peer packet then { peer with inbox := peer.inbox ++ [packet] } else peer

def write (state : RawSocketState) (rawSockets : List RawSocketState) (data : List UInt8) :
    Except ℕ ℕ × List RawSocketState :=
  match fillChecksum state data with
  | .error e => (.error e, rawSockets)
  | .ok packet => (.ok data.length, rawSockets.map (deliver state packet))

def words : List UInt8 → ℕ
  | [] => 0
  | [a] => word a 0
  | a :: b :: rest => word a b + words rest

variable {bytes front rest back : List UInt8}

end RawChecksum
