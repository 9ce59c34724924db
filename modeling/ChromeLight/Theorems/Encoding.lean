import ChromeLight.Dom
import ChromeLight.Encoding
import ChromeLight.Lib.Utf8
import ChromeLight.Theorems.PrescanPrefix

/-!
# Sniffing and more input

An encoding that is decided stays, whatever comes behind the bytes it was decided on; and the decoder sees every byte but those of
the mark that decided it (`sniffEncoding_final`).
-/

namespace ChromeLight

namespace Encoding

open Prescan Whatwg

variable {ε : Type} {table : Encodings ε} {bytes : Bytes}

theorem take_window (bytes : Bytes) : bytes.take (min bytes.length prescanLimitBytes) = bytes.take 1024 := by
  rw [prescanLimitBytes, Nat.min_comm, ← List.take_eq_take_min]

variable [DecidableEq ε]

theorem prescan_full (h : 1024 ≤ bytes.length) (more : Bytes) :
    prescanMetaCharset (bytes ++ more) table = prescanMetaCharset bytes table := by
  have hwindow : (bytes ++ more).take 1024 = bytes.take 1024 := List.take_append_of_le_length h
  simp only [prescanMetaCharset, take_window, hwindow]

/-- What the prescan decides it decides with more bytes. -/
theorem prescan_decided {e : ε} (h : prescanMetaCharset bytes table = some e) (more : Bytes) :
    prescanMetaCharset (bytes ++ more) table = some e := by
  rcases Nat.le_total 1024 bytes.length with hlen | hlen
  · exact (prescan_full hlen more).trans h
  · have hrun : runs table (bytes.take 1024) .loop 0 = .some (some e) := by
      rw [runs_scan, ← h]
      simp only [prescanMetaCharset, take_window]
    have hmore := runs_append hrun (more.take (1024 - bytes.length))
    have hwindow : (bytes ++ more).take 1024 = bytes.take 1024 ++ more.take (1024 - bytes.length) := List.take_append
    rw [← hwindow, runs_scan] at hmore
    simp only [prescanMetaCharset, take_window]
    exact Part.some_injective hmore

/-- The decoder of the sniffed encoding sees every byte but those of the mark that decided it. -/
theorem decode_eq {τ : Type} {decoders : Decoders ε τ} (law : decoders.Lawful table) (bytes : Bytes) (label : Option Bytes) :
    (decode table decoders bytes label).1 = (decoders.decodeWithoutBomHandling (sniffEncoding table bytes label).1
      (bytes.drop (((table.forBom bytes).map (·.2)).getD 0))).1 := by
  simp only [decode, law.removal]
  cases hbom : table.forBom bytes with
  | some found =>
    have hsniff : (sniffEncoding table bytes label).1 = found.1 := by simp only [sniffEncoding, hbom]
    simp only [hsniff, if_true, Option.map_some, Option.getD_some]
  | none => simp only [Option.map_none, Option.getD_none, List.drop_zero]

/-- An encoding that is decided is the same with more bytes, from 1024 bytes on every encoding is, and what is left out of the
text is the mark that decided. -/
theorem sniffEncoding_final {τ : Type} (table : Encodings ε) (decoders : Decoders ε τ) (law : decoders.Lawful table)
    (bytes more : Bytes) (label : Option Bytes) :
    (3 ≤ bytes.length → (sniffEncoding table bytes label).2 ≠ .default →
      sniffEncoding table (bytes ++ more) label = sniffEncoding table bytes label) ∧
    (1024 ≤ bytes.length → sniffEncoding table (bytes ++ more) label = sniffEncoding table bytes label) ∧
    (decode table decoders bytes label).1 = (decoders.decodeWithoutBomHandling (sniffEncoding table bytes label).1
      (bytes.drop (((table.forBom bytes).map (·.2)).getD 0))).1 := by
  refine ⟨?_, ?_, decode_eq law bytes label⟩
  · intro hlen hdecided
    unfold sniffEncoding at hdecided ⊢
    rw [law.forBom_append _ _ hlen]
    cases hbom : table.forBom bytes with
    | some found => rfl
    | none =>
      simp only [hbom] at hdecided
      cases htransport : label.bind table.forLabel with
      | some encoding => rfl
      | none =>
        simp only [htransport] at hdecided
        cases hmeta : prescanMetaCharset bytes table with
        | some encoding => simp only [prescan_decided hmeta]
        | none =>
          simp only [hmeta] at hdecided
          exact absurd rfl hdecided
  · intro hlen
    unfold sniffEncoding
    rw [law.forBom_append _ _ (by omega), prescan_full hlen]

/-! ## Three marks -/

/-- The encodings that have a mark, and two more. -/
def sampleTable : Encodings (Fin 5) where
  forLabel label := if label = ascii "utf-8" then some 0 else if label = ascii "windows-1252" then some 3 else none
  forBom
    | 0xEF :: 0xBB :: 0xBF :: _ => some (0, 3)
    | 0xFE :: 0xFF :: _ => some (1, 2)
    | 0xFF :: 0xFE :: _ => some (2, 2)
    | _ => none
  utf8 := 0
  utf16Be := 1
  utf16Le := 2
  windows1252 := 3
  xUserDefined := 4
  utf8_ne_xUserDefined := by decide

/-- Decoders that read every encoding as UTF-8. -/
def sampleDecoders : Decoders (Fin 5) StrTendril where
  decodeWithoutBomHandling _ bytes := (Utf8.lossy bytes, false)
  decodeWithBomRemoval encoding bytes :=
    match sampleTable.forBom bytes with
    | some (marked, length) => (Utf8.lossy (if encoding = marked then bytes.drop length else bytes), false)
    | none => (Utf8.lossy bytes, false)

theorem lawful_sample : sampleDecoders.Lawful sampleTable where
  forBom_append bytes more h := by
    match bytes, h with
    | a :: b :: c :: rest, _ =>
      simp only [List.cons_append]
      unfold sampleTable
      dsimp only
      split <;> split <;> simp_all
  removal encoding bytes := by
    simp only [sampleDecoders]
    cases sampleTable.forBom bytes <;> rfl

/-- A mark decides against the label of the transport, with more bytes too, and only it is left out of the text. -/
theorem sniffEncoding_final_marked :
    sniffEncoding sampleTable ([0xEF, 0xBB, 0xBF, 0x61] ++ [0x62]) (some (ascii "windows-1252")) = (0, .bom) ∧
      (decode sampleTable sampleDecoders [0xEF, 0xBB, 0xBF, 0x61] (some (ascii "windows-1252"))).1 = ['a'] := by
  obtain ⟨hdecided, -, htext⟩ := sniffEncoding_final sampleTable sampleDecoders lawful_sample [0xEF, 0xBB, 0xBF, 0x61] [0x62]
    (some (ascii "windows-1252"))
  exact ⟨(hdecided (by decide) (by decide)).trans (by decide), htext.trans (by decide)⟩

end Encoding

end ChromeLight
