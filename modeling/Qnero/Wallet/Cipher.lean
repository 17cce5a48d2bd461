import Qnero.Wallet.Sync

/-!
# Note ciphertexts

A note travels as an ML-KEM encapsulation to the recipient's key and two payloads sealed under the
shared secret: the note itself with the key it is paid to, and a memo padded to one size. The three
primitives come from elsewhere.
-/

namespace Qnero

open Plonkish Scale

/-- ML-KEM-1024, ChaCha20-Poly1305 and the expansion of a secret. Keys are their bytes. -/
structure CipherSuite where
  /-- The encapsulation key and the decapsulation key of a seed. -/
  keyPair : List UInt8 → List UInt8 × List UInt8
  /-- The encapsulation and the shared secret. -/
  encapsulate : List UInt8 → List UInt8 → List UInt8 × List UInt8
  expand : List UInt8 → List UInt8 → ℕ → List UInt8
  /-- By key, nonce and associated data. -/
  aeadEncrypt : List UInt8 → List UInt8 → List UInt8 → List UInt8 → Option (List UInt8)

/-! ## Payloads -/

namespace CipherSuite

variable (S : CipherSuite)

/-- The key and the nonce a payload is sealed under. -/
def aeadMaterial (shared label : List UInt8) (suite : ℕ) : List UInt8 × List UInt8 :=
  let bytes := S.expand (asciiBytes "wallet-aead") (shared ++ label ++ toLe 2 suite) 44
  (bytes.take 32, bytes.drop 32)

def encryptPayload (shared label : List UInt8) (suite : ℕ) (data aad : List UInt8) :
    Option (List UInt8) :=
  let (key, nonce) := S.aeadMaterial shared label suite
  S.aeadEncrypt key nonce aad data

end CipherSuite

structure NotePayload where
  value : ℕ
  assetId : ℕ
  rho : Hash256
  r : Hash256
  pkRecipient : Hash256
deriving DecidableEq

def NotePayload.toBytes (payload : NotePayload) : List UInt8 :=
  toLe 8 payload.value ++ toLe 8 payload.assetId ++ payload.rho.toBytes ++ payload.r.toBytes ++
    payload.pkRecipient.toBytes

/-! ## Ciphertexts -/

structure NoteCiphertext where
  version : UInt8
  cryptoSuite : ℕ
  diversifierIndex : ℕ
  kemCiphertext : List UInt8
  notePayload : List UInt8
  memoPayload : List UInt8

def noteLabel : List UInt8 := asciiBytes "note-aead"

def memoLabel : List UInt8 := asciiBytes "memo-aead"

def buildAad (version : UInt8) (suite index : ℕ) : List UInt8 :=
  version :: (toLe 2 suite ++ toLe 4 index)

/-- A length and that many bytes. -/
def framed (bytes : List UInt8) : List UInt8 := toLe 4 bytes.length ++ bytes

namespace NoteCiphertext

def toBytes (ct : NoteCiphertext) : List UInt8 :=
  ct.version :: (toLe 2 ct.cryptoSuite ++ (toLe 4 ct.diversifierIndex ++ (framed ct.kemCiphertext ++
    (framed ct.notePayload ++ framed ct.memoPayload))))

variable (S : CipherSuite)

/-- `NoteCiphertext::encrypt`, to an encapsulation key and a recipient key. -/
def encrypt (ek : List UInt8) (pkRecipient : Hash256) (version : UInt8) (suite index : ℕ)
    (value assetId : ℕ) (rho r : Hash256) (memo kemRandomness : List UInt8) :
    Option NoteCiphertext := do
  let (kem, shared) := S.encapsulate ek kemRandomness
  let payload : NotePayload := ⟨value, assetId, rho, r, pkRecipient⟩
  let aad := buildAad version suite index
  let notePayload ← S.encryptPayload shared noteLabel suite payload.toBytes aad
  let memoPayload ← S.encryptPayload shared memoLabel suite memo aad
  some ⟨version, suite, index, kem, notePayload, memoPayload⟩

end NoteCiphertext

/-! ## Keys -/

/-- What a payer is given. -/
structure Address where
  pk : Digest
  ek : List UInt8

/-- The seed everything else is derived from. -/
structure SpendingKey where
  seed : List UInt8
deriving DecidableEq

namespace SpendingKey

variable (H : Poseidon2) (S : CipherSuite) (key : SpendingKey)

def ask : Digest := H.hashBytes (asciiBytes "qnero/ask" ++ key.seed)

def nk : Digest := H.hashBytes (asciiBytes "qnero/nk" ++ key.seed)

def pk : Digest := derivePk H (key.ask H) (key.nk H)

def kemSeed : List UInt8 :=
  (digestBytes (H.hashBytes (asciiBytes "qnero/kem" ++ key.seed))).toBytes

def ek : List UInt8 := (S.keyPair (key.kemSeed H)).1

end SpendingKey

def ciphertextVersion : UInt8 := 1

def noteCryptoSuite : ℕ := 1

/-- `encrypt_note`, to the address that owns the note's key. -/
def encryptNote (S : CipherSuite) (ek : List UInt8) (note : Note) (memo kemRandomness : List UInt8) :
    Option NoteCiphertext :=
  NoteCiphertext.encrypt S ek (digestBytes note.pk) ciphertextVersion noteCryptoSuite 0 note.value 0
    (digestBytes note.rho) (digestBytes note.r) memo kemRandomness

/-! ## Memos -/

/-- Every memo that is encrypted has this many bytes. -/
def memoBytes : ℕ := 61

/-- `pad_memo`, on the bytes of the text. -/
def padMemo (memo : List UInt8) : Option (List UInt8) :=
  if memo.length ≤ memoBytes then some (memo ++ List.replicate (memoBytes - memo.length) 0) else none

end Qnero
