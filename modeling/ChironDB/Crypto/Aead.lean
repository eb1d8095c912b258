/-
# Authenticated encryption

A cipher seals a value under a key, a nonce and associated data that is not part of the sealed
value, and opens what was sealed.  An ideal cipher opens nothing else: relative to the log of all
that was sealed so far, whatever opens is an entry of the log, under the same key, nonce and
associated data.
-/

import ChironDB.Codec.PrefixCode

namespace ChironDB.Crypto

open Codec

structure Aead where
  encrypt : (key nonce aad value : Bytes) → Bytes
  decrypt : (key nonce aad cipher : Bytes) → Option Bytes

/-- What is sealed. -/
structure Query where
  key : Bytes
  nonce : Bytes
  aad : Bytes
  value : Bytes
  deriving DecidableEq

/-- The length of a tag. -/
def tagLen : ℕ := 16

/-- **A cipher that opens** the entries of a log once they were sealed. -/
structure Aead.Seals (aead : Aead) (log : Query → Prop) : Prop where
  length : ∀ key nonce aad value, (aead.encrypt key nonce aad value).length = value.length + tagLen
  decrypt_encrypt : ∀ q, log q → aead.decrypt q.key q.nonce q.aad
    (aead.encrypt q.key q.nonce q.aad q.value) = some q.value

/-- **A correct cipher** opens whatever it seals, and what it opens was longer by a tag. -/
structure Aead.Correct (aead : Aead) : Prop where
  opens : aead.Seals fun _ => True
  decrypt_length : ∀ {key nonce aad cipher value}, aead.decrypt key nonce aad cipher = some value →
    cipher.length = value.length + tagLen

theorem Aead.Correct.seals {aead : Aead} (h : aead.Correct) (log : Query → Prop) :
    aead.Seals log :=
  ⟨h.opens.length, fun q _ => h.opens.decrypt_encrypt q trivial⟩

/-- **An ideal cipher**, after the entries of the log were sealed. -/
structure Aead.Ideal (aead : Aead) (log : Query → Prop) : Prop where
  length : ∀ key nonce aad value, (aead.encrypt key nonce aad value).length = value.length + tagLen
  decrypt_encrypt : ∀ q, log q → aead.decrypt q.key q.nonce q.aad
    (aead.encrypt q.key q.nonce q.aad q.value) = some q.value
  authentic : ∀ {key nonce aad cipher value}, aead.decrypt key nonce aad cipher = some value →
    log ⟨key, nonce, aad, value⟩ ∧ cipher = aead.encrypt key nonce aad value

theorem Aead.Ideal.seals {aead : Aead} {log : Query → Prop} (h : aead.Ideal log) :
    aead.Seals log :=
  ⟨h.length, h.decrypt_encrypt⟩

/-- A cipher that marks what it seals and opens what a log lists. -/
def Aead.logged (log : List Query) : Aead where
  encrypt _ _ _ value := value ++ List.replicate tagLen 0
  decrypt key nonce aad cipher :=
    let value := cipher.take (cipher.length - tagLen)
    if ⟨key, nonce, aad, value⟩ ∈ log ∧ cipher = value ++ List.replicate tagLen 0 then some value
    else none

theorem Aead.logged_ideal (log : List Query) : (Aead.logged log).Ideal (· ∈ log) where
  length key nonce aad value := by simp [logged]
  decrypt_encrypt q hq := by
    have hvalue : (q.value ++ List.replicate tagLen 0).take
        ((q.value ++ List.replicate tagLen 0).length - tagLen) = q.value := by simp
    simp only [logged, hvalue]
    exact if_pos ⟨hq, trivial⟩
  authentic h := by
    simp only [logged, Option.ite_none_right_eq_some, Option.some.injEq] at h
    obtain ⟨⟨hlog, hcipher⟩, rfl⟩ := h
    exact ⟨hlog, hcipher⟩

/-- A cipher that only marks what it seals. -/
def Aead.marking : Aead where
  encrypt _ _ _ value := value ++ List.replicate tagLen 0
  decrypt _ _ _ cipher :=
    let value := cipher.take (cipher.length - tagLen)
    if cipher = value ++ List.replicate tagLen 0 then some value else none

theorem Aead.marking_correct : Aead.marking.Correct where
  opens := by
    refine ⟨fun key nonce aad value => by simp [marking], fun q _ => ?_⟩
    have hvalue : (q.value ++ List.replicate tagLen 0).take
        ((q.value ++ List.replicate tagLen 0).length - tagLen) = q.value := by simp
    simp only [marking, hvalue, if_true]
  decrypt_length := by
    intro key nonce aad cipher value h
    simp only [marking, Option.ite_none_right_eq_some, Option.some.injEq] at h
    obtain ⟨hcipher, rfl⟩ := h
    rw [hcipher]
    simp

end ChironDB.Crypto
