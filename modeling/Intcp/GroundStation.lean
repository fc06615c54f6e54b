import Intcp.NodeCore

/-!
# The tunnel side of a ground station

`GSsendFunc` of udp_intcp.cpp. A read from the tunnel is cut into segments; each
is copied out of memory, header and payload, put into the cache and given to
`input` as if it had arrived from the network.
-/

namespace GroundStation

open LittleEndian Words BlockCache TransControl SegmentCodec DataPlane NodeCore

universe u
variable {F : Type u} {nameLen : Nat} (P : Platform F)

/-- A session; its name and its cache are those that the control block reaches. -/
structure IntcpSess (F : Type u) (nameLen : Nat) where
  packetId : Int32
  transCB : IntcpTransCB F nameLen
  /-- The calls of `inputUDP`: what `input` returned, and the datagram. -/
  inputs : List (Int32 × List UInt8)

/-- The constructor; `random` is what `rand()` returned. -/
def IntcpSess.create (nodeRole : Role) (nameChars : Vector UInt8 nameLen)
    (cache : Cache nameLen) (random : Nat) : IntcpSess F nameLen where
  packetId := Int32.ofNat (random % 100)
  transCB := .create P nodeRole nameChars cache
  inputs := []

/-- The bytes of a packed `IntcpSeg` in the memory of a little-endian machine. -/
def structBytes (seg : IntcpSeg) : List UInt8 :=
  seg.cmd :: (bytes16 seg.wnd.toUInt16 ++ (bytes32 seg.ts ++ (bytes32 seg.sn ++
    (bytes32 seg.len ++ (bytes32 seg.rangeStart ++ (bytes32 seg.rangeEnd ++
      (bytes32 seg.xmit ++ seg.data)))))))

/-- The session has a pointer to the cache, so its control block sees every insert. -/
def withCache (cb : IntcpTransCB F nameLen) (cache : Cache nameLen) : IntcpTransCB F nameLen :=
  { cb with cache := cache }

def inputUDP (sess : IntcpSess F nameLen) (recvBuf : List UInt8) : IntcpSess F nameLen :=
  let got := input P sess.transCB recvBuf
  { sess with transCB := got.2, inputs := sess.inputs ++ [(got.1, recvBuf)] }

/-- The segment that one round of `GSsendFunc` fills. -/
def tunnelSeg (packetId size : Int32) (pt : Buffer) : IntcpSeg :=
  pushSeg P packetId.toUInt32 (packetId + size).toUInt32 size.toUInt32
    (pt.bytes size.toUInt32.toNat) (by simp)

/-- The first bytes of the struct, and the payload behind them. -/
def sndbuftmp (seg : IntcpSeg) : List UInt8 :=
  (structBytes seg).take intcpOverhead.toNat ++ seg.data

/-- One round of `GSsendFunc`. -/
def sendChunk (sess : IntcpSess F nameLen) (pt : Buffer) (size : Int32) :
    Option (IntcpSess F nameLen) :=
  let seg := tunnelSeg P sess.packetId size pt
  let payload := (Buffer.ofList (sndbuftmp seg)).advance intcpOverhead.toNat
  (BlockCache.insert sess.transCB.cache sess.transCB.nameChars seg.rangeStart seg.rangeEnd
    payload).map fun cache =>
      let sess := inputUDP P { sess with transCB := withCache sess.transCB cache } (sndbuftmp seg)
      { sess with packetId := sess.packetId + size }

/-- The loop of `GSsendFunc`; every round takes a byte at least, so `len` rounds are enough. -/
def sendChunks : Nat → IntcpSess F nameLen → Buffer → Int32 → Int32 →
    Option (Int32 × IntcpSess F nameLen)
  | 0, sess, _, _, tot => some (tot, sess)
  | fuel + 1, sess, pt, len, tot =>
    if len > 0 then
      let size := if len > intcpMss.toInt32 then intcpMss.toInt32 else len
      (sendChunk P sess pt size).bind fun sess =>
        sendChunks fuel sess (pt.advance size.toUInt32.toNat) (len - size) (tot + size)
    else some (tot, sess)

def gsSendFunc (sess : IntcpSess F nameLen) (buffer : Buffer) (buflen : Int32) :
    Option (Int32 × IntcpSess F nameLen) :=
  sendChunks P buflen.toUInt32.toNat sess buffer buflen 0

/-- Reads from the tunnel, one after the other, with what `GSsendFunc` returns for each. -/
def sendReads : IntcpSess F nameLen → List (List UInt8) →
    Option (List Int32 × IntcpSess F nameLen)
  | sess, [] => some ([], sess)
  | sess, buffer :: rest =>
    (gsSendFunc P sess (Buffer.ofList buffer) (Int32.ofNat buffer.length)).bind fun sent =>
      (sendReads sent.2 rest).map fun later => (sent.1 :: later.1, later.2)

end GroundStation
