import Kmod.Base
import Kmod.Lib.Memory
import Kmod.Lib.Bytes
import Kmod.Lib.ByteScan

/-!
# The signature behind a module

A signed module ends with a magic string, and before it a header that says how long the
three parts are that stand before the header: the signer's name, the key identifier and
the signature. `kmod_module_signature_info` finds them from the end, by subtraction.

Every file is a body with a header and the magic string behind it, or it is not
(`Trailed`). On the first kind the function is computed once
(`kmodModuleSignatureInfo_trailed`), and on the other it finds nothing; neither reads
outside the file. From these the round trip follows, and its converse
(`kmodModuleSignatureInfo_correct`).
-/

namespace Kmod

open Memory Bytes ByteScan

/-! ## The model -/

def PKEY_ALGO_LAST : Nat := 2

def pkeyHashAlgo : List CStr :=
  [cstr "md4", cstr "md5", cstr "sha1", cstr "rmd160", cstr "sha256", cstr "sha384", cstr "sha512",
    cstr "sha224", cstr "sm3"]

def PKEY_HASH_LAST : Nat := 9

def PKEY_ID_PKCS7 : Nat := 2

def pkeyIdType : List CStr := [cstr "PGP", cstr "X509", cstr "PKCS#7"]

def PKEY_ID_TYPE_LAST : Nat := 3

def SIG_MAGIC : CStr := cstr "~Module signature appended~\n"

/-- `struct module_signature`; the length of the signature is in the host's byte order here. -/
structure ModuleSignature where
  algo : UInt8
  hash : UInt8
  idType : UInt8
  signerLen : UInt8
  keyIdLen : UInt8
  pad : UInt8 × UInt8 × UInt8
  sigLen : UInt32
  deriving DecidableEq

def MODULE_SIGNATURE_SIZE : Nat := 12

/-- The structure as it is in memory. -/
def ModuleSignature.bytes (h : ModuleSignature) : List UInt8 :=
  [h.algo, h.hash, h.idType, h.signerLen, h.keyIdLen, h.pad.1, h.pad.2.1, h.pad.2.2]
    ++ be32 h.sigLen.toNat

/-- The structure that some bytes of memory are. -/
def ModuleSignature.ofBytes : List UInt8 → Option ModuleSignature
  | algo :: hash :: idType :: signerLen :: keyIdLen :: pad₀ :: pad₁ :: pad₂ :: rest =>
    (takeBe32 rest).map (fun sigLen =>
      { algo, hash, idType, signerLen, keyIdLen, pad := (pad₀, pad₁, pad₂)
        sigLen := UInt32.ofNat sigLen.1 })
  | _ => none

/-- What a pointer of `struct kmod_signature_info` points to. -/
inductive SigPtr where
  | null
  /-- An offset in the file. -/
  | file (off : Int)
  /-- Memory of a library. -/
  | other (bytes : CStr)
  deriving DecidableEq

/-- `struct kmod_signature_info` -/
structure KmodSignatureInfo where
  signer : SigPtr
  signerLen : Nat
  keyId : SigPtr
  keyIdLen : Nat
  hashAlgo : CStr
  idType : CStr
  sig : SigPtr
  sigLen : Nat
  deriving DecidableEq

/-- What `calloc` gives. -/
def KmodSignatureInfo.zero : KmodSignatureInfo :=
  { signer := .null, signerLen := 0, keyId := .null, keyIdLen := 0, hashAlgo := [], idType := []
    sig := .null, sigLen := 0 }

/-- The allocator, and the libraries that look into a PKCS#7 message. -/
structure SignatureEnv where
  calloc : Bool
  kmodFillPkcs7Openssl : List UInt8 → Int → Nat → Option KmodSignatureInfo
  kmodFillPkcs7Mbedtls : List UInt8 → Int → Nat → Option KmodSignatureInfo

/-- `fill_default` -/
def fillDefault (env : SignatureEnv) (size : Int) (modsig : ModuleSignature) (sigLen : Nat) :
    Except Fault (Option KmodSignatureInfo) :=
  if env.calloc = false then .ok none
  else do
    let size := size - sigLen
    let info := { KmodSignatureInfo.zero with sig := .file size, sigLen := sigLen }
    let size := size - modsig.keyIdLen.toNat
    let info := { info with keyId := .file size, keyIdLen := modsig.keyIdLen.toNat }
    let size := size - modsig.signerLen.toNat
    let info := { info with signer := .file size, signerLen := modsig.signerLen.toNat }
    let hashAlgo ← inBlock pkeyHashAlgo[modsig.hash.toNat]?
    .ok (some { info with hashAlgo := hashAlgo })

/-- `kmod_fill_pkcs7_dummy` -/
def kmodFillPkcs7Dummy (env : SignatureEnv) : Option KmodSignatureInfo :=
  if env.calloc = false then none
  else some { KmodSignatureInfo.zero with hashAlgo := cstr "unknown" }

/-- The PKCS#7 message is given to one library after the other. -/
def fillPkcs7 (env : SignatureEnv) (mem : List UInt8) (size : Int) (sigLen : Nat) :
    Option KmodSignatureInfo :=
  (env.kmodFillPkcs7Openssl mem size sigLen).or
    ((env.kmodFillPkcs7Mbedtls mem size sigLen).or (kmodFillPkcs7Dummy env))

/-- The memory from `mem + p` on. -/
def fromPtr (mem : List UInt8) (p : Int) : Except Fault (List UInt8) :=
  if 0 ≤ p ∧ p ≤ mem.length then .ok (mem.drop p.toNat) else .error .outOfBounds

/-- What follows the magic string at the end: the header, its checks and the information. -/
def headerInfo (env : SignatureEnv) (mem : List UInt8) (size : Int) :
    Except Fault (Option KmodSignatureInfo) :=
  if size < MODULE_SIGNATURE_SIZE then .ok none
  else do
    let size := size - MODULE_SIGNATURE_SIZE
    let cells ← fromPtr mem size
    let cells ← inBlock (getRange cells 0 MODULE_SIGNATURE_SIZE)
    let modsig ← inBlock (ModuleSignature.ofBytes cells)
    if PKEY_ALGO_LAST ≤ modsig.algo.toNat ∨ PKEY_HASH_LAST ≤ modsig.hash.toNat ∨
        PKEY_ID_TYPE_LAST ≤ modsig.idType.toNat then .ok none
    else
      let sigLen := modsig.sigLen.toNat
      if sigLen = 0 ∨ size < (sigLen : Int) + modsig.signerLen.toNat + modsig.keyIdLen.toNat then
        .ok none
      else do
        let ret ← if modsig.idType.toNat = PKEY_ID_PKCS7 then .ok (fillPkcs7 env mem size sigLen)
          else fillDefault env size modsig sigLen
        match ret with
        | none => .ok none
        | some info => do
          let idType ← inBlock pkeyIdType[modsig.idType.toNat]?
          .ok (some { info with idType := idType })

/-- `kmod_module_signature_info`; `contents` is what `kmod_file_get_contents` gives. -/
def kmodModuleSignatureInfo (env : SignatureEnv) (contents : Except Int (List UInt8)) :
    Except Fault (Option KmodSignatureInfo) :=
  match contents with
  | .error _ => .ok none
  | .ok mem =>
    let size : Int := mem.length
    if size < SIG_MAGIC.length then .ok none
    else do
      let size := size - SIG_MAGIC.length
      let tail ← fromPtr mem size
      let signed ← inBlock (startsWithTail SIG_MAGIC tail)
      if signed = false then .ok none else headerInfo env mem size

/-! ## The header -/

theorem length_bytes (h : ModuleSignature) : h.bytes.length = MODULE_SIGNATURE_SIZE := rfl

theorem ofBytes_bytes (h : ModuleSignature) : ModuleSignature.ofBytes h.bytes = some h := by
  have hlen : takeBe32 (be32 h.sigLen.toNat) = some (h.sigLen.toNat % 2 ^ 32, []) := by
    have happ := takeBe32_be32 h.sigLen.toNat []
    rwa [List.append_nil] at happ
  simp only [ModuleSignature.bytes, List.cons_append, List.nil_append, ModuleSignature.ofBytes]
  rw [hlen, Nat.mod_eq_of_lt h.sigLen.toNat_lt, Option.map_some, UInt32.ofNat_toNat]

/-- Four bytes are a word. -/
theorem exists_be32 {s : List UInt8} (hs : s.length = 4) : ∃ w : UInt32, be32 w.toNat = s := by
  match s, hs with
  | [b₀, b₁, b₂, b₃], _ =>
    have h₀ := b₀.toNat_lt
    have h₁ := b₁.toNat_lt
    have h₂ := b₂.toNat_lt
    have h₃ := b₃.toNat_lt
    refine ⟨UInt32.ofNat (b₀.toNat * 2 ^ 24 + b₁.toNat * 2 ^ 16 + b₂.toNat * 2 ^ 8 + b₃.toNat), ?_⟩
    have hbyte : ∀ (b : UInt8) (n : Nat), n % 256 = b.toNat → UInt8.ofNat n = b :=
      fun b n hn => UInt8.toNat_inj.1 (by rw [UInt8.toNat_ofNat', hn])
    rw [UInt32.toNat_ofNat', Nat.mod_eq_of_lt (by omega)]
    unfold be32
    rw [hbyte b₀ _ (by omega), hbyte b₁ _ (by omega), hbyte b₂ _ (by omega), hbyte b₃ _ (by omega)]

/-- Any twelve bytes are a header. -/
theorem exists_bytes {s : List UInt8} (hs : s.length = MODULE_SIGNATURE_SIZE) :
    ∃ h : ModuleSignature, h.bytes = s := by
  match s, hs with
  | a :: b :: c :: d :: e :: p :: q :: r :: rest, hs =>
    unfold MODULE_SIGNATURE_SIZE at hs
    obtain ⟨w, hw⟩ := exists_be32 (s := rest) (by simpa using hs)
    exact ⟨⟨a, b, c, d, e, (p, q, r), w⟩, by unfold ModuleSignature.bytes; rw [hw]; rfl⟩

/-! ## A file with a header at its end -/

/-- The tables have a name for what the header says. -/
def ModuleSignature.InRange (h : ModuleSignature) : Prop :=
  h.algo.toNat < PKEY_ALGO_LAST ∧ h.hash.toNat < PKEY_HASH_LAST ∧ h.idType.toNat < PKEY_ID_TYPE_LAST

/-- The bytes that the header says to stand before it. -/
def ModuleSignature.total (h : ModuleSignature) : Nat :=
  h.sigLen.toNat + h.signerLen.toNat + h.keyIdLen.toNat

/-- There is something to be found. -/
def ModuleSignature.Usable (h : ModuleSignature) (body : List UInt8) : Prop :=
  h.InRange ∧ h.sigLen.toNat ≠ 0 ∧ h.total ≤ body.length

theorem fromPtr_append (a b : List UInt8) {p : Int} (hp : p = a.length) :
    fromPtr (a ++ b) p = .ok b := by
  subst hp
  unfold fromPtr
  rw [if_pos (by simp only [List.length_append]; omega), Int.toNat_natCast, List.drop_left]

/-- The slices of a body, behind what is left of the module. -/
def ModuleSignature.info (h : ModuleSignature) (body : List UInt8) (hashAlgo idType : CStr) :
    KmodSignatureInfo :=
  { signer := .file (body.length - h.total), signerLen := h.signerLen.toNat
    keyId := .file (body.length - h.total + h.signerLen.toNat), keyIdLen := h.keyIdLen.toNat
    hashAlgo := hashAlgo, idType := idType
    sig := .file (body.length - h.sigLen.toNat), sigLen := h.sigLen.toNat }

/-- What the header gives if it can be used. -/
def usableInfo (env : SignatureEnv) (mem : List UInt8) (h : ModuleSignature) (body : List UInt8) :
    Option KmodSignatureInfo :=
  if h.idType.toNat = PKEY_ID_PKCS7 then
    (fillPkcs7 env mem body.length h.sigLen.toNat).map (fun info =>
      { info with idType := pkeyIdType.getD h.idType.toNat [] })
  else if env.calloc = false then none
  else some (h.info body (pkeyHashAlgo.getD h.hash.toNat []) (pkeyIdType.getD h.idType.toNat []))

theorem inBlock_getElem? {α : Type} {l : List α} {i : Nat} (hi : i < l.length) (d : α) :
    inBlock l[i]? = .ok (l.getD i d) := by
  rw [List.getD_eq_getElem?_getD, List.getElem?_eq_getElem hi]
  rfl

/-- **A file with a header**, and the magic string. -/
theorem kmodModuleSignatureInfo_trailed (env : SignatureEnv) (body : List UInt8)
    (h : ModuleSignature) [Decidable (h.Usable body)] :
    kmodModuleSignatureInfo env (.ok (body ++ (h.bytes ++ SIG_MAGIC)))
      = .ok (if h.Usable body then usableInfo env (body ++ (h.bytes ++ SIG_MAGIC)) h body
          else none) := by
  have hbytes := length_bytes h
  have hmagic : SIG_MAGIC.length = 28 := by decide
  have hsize : (((body ++ (h.bytes ++ SIG_MAGIC)).length : Nat) : Int)
      = body.length + MODULE_SIGNATURE_SIZE + SIG_MAGIC.length := by
    simp [hbytes, Int.add_assoc]
  unfold kmodModuleSignatureInfo
  dsimp only
  rw [hsize, Int.add_sub_cancel, if_neg (by omega), ← List.append_assoc,
    fromPtr_append _ _ (by simp [hbytes]), ok_bind,
    (startsWithTail_eq_true SIG_MAGIC SIG_MAGIC).2 List.prefix_rfl, inBlock_some, ok_bind,
    if_neg (by decide), List.append_assoc]
  unfold headerInfo
  rw [if_neg (by omega)]
  dsimp only
  rw [Int.add_sub_cancel, fromPtr_append _ _ rfl, ok_bind]
  have hget : getRange (h.bytes ++ SIG_MAGIC) 0 MODULE_SIGNATURE_SIZE = some h.bytes :=
    getRange_append [] h.bytes SIG_MAGIC
  rw [hget, inBlock_some, ok_bind, ofBytes_bytes, inBlock_some, ok_bind]
  by_cases hrange : h.InRange
  · obtain ⟨halgo, hhash, hid⟩ := hrange
    rw [if_neg (by omega)]
    by_cases hlen : h.sigLen.toNat ≠ 0 ∧ h.total ≤ body.length
    · obtain ⟨hne, htotal⟩ := hlen
      have husable : h.Usable body := ⟨⟨halgo, hhash, hid⟩, hne, htotal⟩
      unfold ModuleSignature.total at htotal
      rw [if_neg (by omega), if_pos husable]
      unfold usableInfo
      by_cases hpkcs : h.idType.toNat = PKEY_ID_PKCS7
      · rw [if_pos hpkcs, if_pos hpkcs, ok_bind]
        cases fillPkcs7 env (body ++ (h.bytes ++ SIG_MAGIC)) body.length h.sigLen.toNat with
        | none => rfl
        | some info =>
          dsimp only
          rw [inBlock_getElem? (d := []) hid, ok_bind]
          rfl
      · rw [if_neg hpkcs, if_neg hpkcs]
        unfold fillDefault
        by_cases hcalloc : env.calloc = false
        · rw [if_pos hcalloc, if_pos hcalloc]
          rfl
        · rw [if_neg hcalloc, if_neg hcalloc]
          dsimp only
          rw [inBlock_getElem? (d := []) hhash, ok_bind, ok_bind]
          dsimp only
          rw [inBlock_getElem? (d := []) hid, ok_bind]
          unfold ModuleSignature.info ModuleSignature.total
          congr 3
          · congr 1
            omega
          · congr 1
            omega
    · rw [if_pos (by unfold ModuleSignature.total at hlen; omega), if_neg (fun hu => hlen hu.2)]
  · rw [if_pos (by unfold ModuleSignature.InRange at hrange; omega), if_neg (fun hu => hrange hu.1)]

theorem fromPtr_eq (mem : List UInt8) {p : Int} (h0 : 0 ≤ p) (hp : p ≤ mem.length) :
    fromPtr mem p = .ok (mem.drop p.toNat) := if_pos ⟨h0, hp⟩

/-- The twelve bytes before the magic string are a header. -/
theorem exists_trailed {mem : List UInt8} (hlen : 40 ≤ mem.length)
    (hend : mem.drop (mem.length - 28) = SIG_MAGIC) :
    ∃ (body : List UInt8) (h : ModuleSignature), mem = body ++ (h.bytes ++ SIG_MAGIC) := by
  obtain ⟨n, hn⟩ : ∃ n, mem.length = n + 12 + 28 := ⟨mem.length - 40, by omega⟩
  obtain ⟨h, hh⟩ := exists_bytes (s := (mem.drop n).take 12)
    (by rw [List.length_take, List.length_drop, MODULE_SIGNATURE_SIZE]; omega)
  refine ⟨mem.take n, h, ?_⟩
  rw [hn, Nat.add_sub_cancel] at hend
  rw [hh, ← hend, ← List.drop_drop, List.take_append_drop, List.take_append_drop]

/-- **Any other file** has no signature. -/
theorem kmodModuleSignatureInfo_untrailed (env : SignatureEnv) {mem : List UInt8}
    (hnot : ∀ (body : List UInt8) (h : ModuleSignature), mem ≠ body ++ (h.bytes ++ SIG_MAGIC)) :
    kmodModuleSignatureInfo env (.ok mem) = .ok none := by
  have hmagic : SIG_MAGIC.length = 28 := by decide
  unfold kmodModuleSignatureInfo
  dsimp only
  by_cases hshort : ((mem.length : Nat) : Int) < SIG_MAGIC.length
  · rw [if_pos hshort]
  -- what stands where the magic string should be has its length
  have hlen : (mem.drop ((mem.length : Int) - SIG_MAGIC.length).toNat).length = 28 := by
    rw [List.length_drop]
    omega
  have hcompare : ¬ (mem.drop ((mem.length : Int) - SIG_MAGIC.length).toNat <+: SIG_MAGIC ∧
      mem.drop ((mem.length : Int) - SIG_MAGIC.length).toNat ≠ SIG_MAGIC) :=
    fun h => h.2 (h.1.eq_of_length (by rw [hlen, hmagic]))
  rw [if_neg hshort, fromPtr_eq _ (by omega) (by omega), ok_bind, startsWithTail_eq hcompare,
    inBlock_some, ok_bind]
  by_cases hsigned : SIG_MAGIC <+: mem.drop ((mem.length : Int) - SIG_MAGIC.length).toNat
  · rw [if_neg (by simpa using hsigned)]
    unfold headerInfo
    by_cases hheader : ((mem.length : Nat) : Int) - SIG_MAGIC.length < MODULE_SIGNATURE_SIZE
    · rw [if_pos hheader]
    · have hsize : MODULE_SIGNATURE_SIZE = 12 := rfl
      have hstart : ((mem.length : Int) - SIG_MAGIC.length).toNat = mem.length - 28 := by omega
      have hend := hsigned.eq_of_length (by rw [hlen, hmagic])
      rw [hstart] at hend
      obtain ⟨body, h, heq⟩ := exists_trailed (by omega) hend.symm
      exact absurd heq (hnot body h)
  · rw [if_pos (by simpa using hsigned)]

/-! ## The round trip -/

/-- The bytes that a pointer and a length of the information stand for. -/
def SigPtr.slice (mem : List UInt8) (len : Nat) : SigPtr → Option (List UInt8)
  | .file off => if 0 ≤ off then getRange mem off.toNat len else none
  | _ => none

/-- A signed module. -/
def signedModule (M S K G : List UInt8) (h : ModuleSignature) : List UInt8 :=
  M ++ (S ++ (K ++ (G ++ (h.bytes ++ SIG_MAGIC))))

/-- The header states the lengths of the signer's name, the key identifier and the signature. -/
structure ModuleSignature.States (h : ModuleSignature) (S K G : List UInt8) : Prop where
  signerLen : S.length = h.signerLen.toNat
  keyIdLen : K.length = h.keyIdLen.toNat
  sigLen : G.length = h.sigLen.toNat

/-- Three slices one after the other, and the names of what the header says. -/
def signedInfo (M S K G : List UInt8) (h : ModuleSignature) : KmodSignatureInfo :=
  { signer := .file M.length, signerLen := S.length
    keyId := .file (M.length + S.length), keyIdLen := K.length
    hashAlgo := pkeyHashAlgo.getD h.hash.toNat [], idType := pkeyIdType.getD h.idType.toNat []
    sig := .file (M.length + S.length + K.length), sigLen := G.length }

theorem slice_append {a b c mem : List UInt8} {off : Int} (hmem : mem = a ++ (b ++ c))
    (hoff : off = a.length) : (SigPtr.file off).slice mem b.length = some b := by
  subst hmem hoff
  unfold SigPtr.slice
  dsimp only
  rw [if_pos (by omega), Int.toNat_natCast]
  exact getRange_append a b c

/-- The slices of a signed module are its parts. -/
theorem signedInfo_slices (M S K G : List UInt8) (h : ModuleSignature) :
    (signedInfo M S K G h).signer.slice (signedModule M S K G h) S.length = some S ∧
      (signedInfo M S K G h).keyId.slice (signedModule M S K G h) K.length = some K ∧
      (signedInfo M S K G h).sig.slice (signedModule M S K G h) G.length = some G := by
  refine ⟨slice_append rfl rfl, slice_append (a := M ++ S) (List.append_assoc ..).symm (by simp),
    slice_append (a := M ++ S ++ K) (c := h.bytes ++ SIG_MAGIC) ?_ ?_⟩
  · simp only [signedModule, List.append_assoc]
  · simp only [List.length_append, Int.natCast_add]

theorem signedModule_eq (M S K G : List UInt8) (h : ModuleSignature) :
    signedModule M S K G h = (M ++ (S ++ (K ++ G))) ++ (h.bytes ++ SIG_MAGIC) := by
  simp only [signedModule, List.append_assoc]

/-- What is found in the body is what stands there. -/
theorem info_eq_signedInfo {M S K G : List UInt8} {h : ModuleSignature} (hlen : h.States S K G) :
    h.info (M ++ (S ++ (K ++ G))) (pkeyHashAlgo.getD h.hash.toNat [])
      (pkeyIdType.getD h.idType.toNat []) = signedInfo M S K G h := by
  have hS := hlen.signerLen
  have hK := hlen.keyIdLen
  have hG := hlen.sigLen
  unfold ModuleSignature.info ModuleSignature.total signedInfo
  simp only [List.length_append, KmodSignatureInfo.mk.injEq, SigPtr.file.injEq, true_and]
  omega

theorem take_append_drop_add (l : List UInt8) (n i : Nat) :
    (l.drop n).take i ++ l.drop (n + i) = l.drop n := by
  rw [← List.drop_drop, List.take_append_drop]

/-- A body that is long enough ends with the three parts. -/
theorem exists_parts {h : ModuleSignature} {body : List UInt8} (htotal : h.total ≤ body.length) :
    ∃ M S K G, body = M ++ (S ++ (K ++ G)) ∧ h.States S K G := by
  unfold ModuleSignature.total at htotal
  obtain ⟨n, hn⟩ : ∃ n, body.length = n + h.signerLen.toNat + h.keyIdLen.toNat + h.sigLen.toNat :=
    ⟨body.length - (h.sigLen.toNat + h.signerLen.toNat + h.keyIdLen.toNat), by omega⟩
  refine ⟨body.take n, (body.drop n).take h.signerLen.toNat,
    (body.drop (n + h.signerLen.toNat)).take h.keyIdLen.toNat,
    body.drop (n + h.signerLen.toNat + h.keyIdLen.toNat), ?_, ?_, ?_, ?_⟩
  · rw [take_append_drop_add, take_append_drop_add, List.take_append_drop]
  · rw [List.length_take, List.length_drop]
    omega
  · rw [List.length_take, List.length_drop]
    omega
  · rw [List.length_drop]
    omega

/--
**The trailer of a signed module.** What was put behind a module is found again; what is
found was put there, by `fill_default` at least; without a header that can be used there
is nothing found; and no file makes the function read outside of it.
-/
theorem kmodModuleSignatureInfo_correct (env : SignatureEnv) :
    (∀ (M S K G : List UInt8) (h : ModuleSignature), h.States S K G → 1 ≤ G.length → h.InRange →
      h.idType.toNat ≠ PKEY_ID_PKCS7 → env.calloc = true →
      kmodModuleSignatureInfo env (.ok (signedModule M S K G h)) =
        .ok (some (signedInfo M S K G h)) ∧
      (signedInfo M S K G h).signer.slice (signedModule M S K G h) S.length = some S ∧
      (signedInfo M S K G h).keyId.slice (signedModule M S K G h) K.length = some K ∧
      (signedInfo M S K G h).sig.slice (signedModule M S K G h) G.length = some G) ∧
    (∀ mem info, kmodModuleSignatureInfo env (.ok mem) = .ok (some info) →
      ∃ M S K G h, mem = signedModule M S K G h ∧ h.States S K G ∧ h.InRange ∧ 1 ≤ G.length ∧
        (h.idType.toNat ≠ PKEY_ID_PKCS7 → info = signedInfo M S K G h)) ∧
    (∀ mem, (¬ ∃ (body : List UInt8) (h : ModuleSignature), mem = body ++ (h.bytes ++ SIG_MAGIC) ∧
        h.Usable body) → kmodModuleSignatureInfo env (.ok mem) = .ok none) ∧
    ∀ contents, ∃ ret, kmodModuleSignatureInfo env contents = .ok ret := by
  classical
  have hcases : ∀ mem, (∃ (body : List UInt8) (h : ModuleSignature),
      mem = body ++ (h.bytes ++ SIG_MAGIC) ∧ h.Usable body ∧
      kmodModuleSignatureInfo env (.ok mem) = .ok (usableInfo env mem h body)) ∨
      kmodModuleSignatureInfo env (.ok mem) = .ok none := by
    intro mem
    by_cases hex : ∃ (body : List UInt8) (h : ModuleSignature), mem = body ++ (h.bytes ++ SIG_MAGIC)
    · obtain ⟨body, h, rfl⟩ := hex
      rw [kmodModuleSignatureInfo_trailed]
      by_cases husable : h.Usable body
      · exact Or.inl ⟨body, h, rfl, husable, by rw [if_pos husable]⟩
      · exact Or.inr (by rw [if_neg husable])
    · exact Or.inr (kmodModuleSignatureInfo_untrailed env (fun body h heq => hex ⟨body, h, heq⟩))
  refine ⟨fun M S K G h hlen hG hrange hid hcalloc => ⟨?_, signedInfo_slices M S K G h⟩,
    fun mem info hinfo => ?_, fun mem hnot => ?_, fun contents => ?_⟩
  · have hS := hlen.signerLen
    have hK := hlen.keyIdLen
    have hsig := hlen.sigLen
    have husable : h.Usable (M ++ (S ++ (K ++ G))) := by
      refine ⟨hrange, by omega, ?_⟩
      unfold ModuleSignature.total
      simp only [List.length_append]
      omega
    rw [signedModule_eq, kmodModuleSignatureInfo_trailed, if_pos husable]
    unfold usableInfo
    rw [if_neg hid, if_neg (by simp [hcalloc]), info_eq_signedInfo hlen]
  · rcases hcases mem with ⟨body, h, rfl, ⟨hrange, hne, htotal⟩, hrun⟩ | hnone
    · obtain ⟨M, S, K, G, rfl, hlen⟩ := exists_parts htotal
      have hsig := hlen.sigLen
      refine ⟨M, S, K, G, h, (signedModule_eq M S K G h).symm, hlen, hrange, by omega,
        fun hid => ?_⟩
      rw [hrun] at hinfo
      unfold usableInfo at hinfo
      rw [if_neg hid, info_eq_signedInfo hlen] at hinfo
      split at hinfo
      · cases hinfo
      · cases hinfo
        rfl
    · rw [hnone] at hinfo
      cases hinfo
  · rcases hcases mem with ⟨body, h, hmem, husable, -⟩ | hnone
    · exact absurd ⟨body, h, hmem, husable⟩ hnot
    · exact hnone
  · cases contents with
    | error e => exact ⟨none, rfl⟩
    | ok mem =>
      rcases hcases mem with ⟨body, h, -, -, hrun⟩ | hnone
      · exact ⟨_, hrun⟩
      · exact ⟨_, hnone⟩

end Kmod
