/-
The style of line endings does not matter.

The carriage returns at the end of a line are cut off before anything looks at the line, and they
do not decide whether its bytes are text: the byte of a carriage return occurs in the encoding of
no other character, so a line is text with it exactly if it is text without it
(`decodeLine_append_return`). Sources that differ only in what stands before their line feeds are
therefore the same list of lines, whatever a scan makes of these lines (`SameEndings.ofBytes_eq`),
and there is nothing left by which a lexer or a compiler could tell them apart.

A carriage return in front of anything else is a character of its line.
-/
import Jack.Compiler.Class
import Jack.Proofs.Continuation
import Jack.Proofs.FileBuild

set_option autoImplicit false

namespace Jack

namespace Source

/-! ## Carriage returns at the end of a line -/

/-- The byte of a carriage return. -/
def carriageReturn : UInt8 := 13

theorem encoded_append_return (text : List Char) :
    encoded (text ++ ['\r']) = encoded text ++ [carriageReturn] := encoded_append text ['\r']

/-- A text that ends with the byte of a carriage return ends with the character. -/
theorem exists_encoded_of_append_return {bytes : List UInt8} {text : List Char}
    (htext : bytes ++ [carriageReturn] = encoded text) : ∃ shorter, bytes = encoded shorter := by
  rcases List.eq_nil_or_concat' text with rfl | ⟨shorter, c, rfl⟩
  · exact absurd htext (List.append_ne_nil_of_right_ne_nil _ (List.cons_ne_nil _ _))
  · have hone : encoded [c] = String.utf8EncodeChar c := by simp [encoded]
    -- the last byte of the text is one of its last character
    have hlast : (String.utf8EncodeChar c).getLast? = some carriageReturn := by
      have hends := congrArg List.getLast? htext
      rw [List.getLast?_concat, encoded_append, hone, List.getLast?_append,
        List.getLast?_eq_some_getLast String.utf8EncodeChar_ne_nil, Option.some_or] at hends
      rw [List.getLast?_eq_some_getLast String.utf8EncodeChar_ne_nil, ← hends]
    have hc : c = '\r' :=
      eq_of_mem_utf8EncodeChar rfl (by decide) (List.mem_of_getLast? hlast)
    rw [hc, encoded_append_return] at htext
    exact ⟨shorter, List.append_cancel_right htext⟩

/-- Bytes that are not the encoding of a text cannot be read. -/
theorem decodeLine_of_not_encoded {bytes : List UInt8} (hbytes : ¬ ∃ text, bytes = encoded text) :
    decodeLine bytes = .unreadable .notText := by
  cases hdecode : decodeLine bytes with
  | text characters => exact absurd (exists_encoded_of_decodeLine hdecode) hbytes
  | unreadable cause =>
    unfold decodeLine at hdecode
    split at hdecode <;> cases hdecode
    rfl

theorem trimReturns_append_return (line : List Char) :
    trimReturns (line ++ ['\r']) = trimReturns line := by
  simp [trimReturns]

/-- A line reads alike with and without a carriage return at its end, text or not. -/
theorem decodeLine_append_return (bytes : List UInt8) :
    decodeLine (bytes ++ [carriageReturn]) = decodeLine bytes := by
  by_cases htext : ∃ text, bytes = encoded text
  · obtain ⟨text, rfl⟩ := htext
    rw [← encoded_append_return, decodeLine_encoded, decodeLine_encoded, trimReturns_append_return]
  · have hlonger : ¬ ∃ text, bytes ++ [carriageReturn] = encoded text := by
      rintro ⟨text, hencoded⟩
      exact htext (exists_encoded_of_append_return hencoded)
    rw [decodeLine_of_not_encoded htext, decodeLine_of_not_encoded hlonger]

theorem decodeLine_append_returns (bytes : List UInt8) (returns : Nat) :
    decodeLine (bytes ++ List.replicate returns carriageReturn) = decodeLine bytes := by
  induction returns with
  | zero => rw [List.replicate_zero, List.append_nil]
  | succ returns ih =>
    rw [List.replicate_succ', ← List.append_assoc, decodeLine_append_return, ih]

/-- A carriage return that something follows is read. -/
theorem decodeLine_kept (line : List Char) {last : Char} (hlast : last ≠ '\r') :
    decodeLine (encoded (line ++ [last])) = .text (line ++ [last]) := by
  rw [decodeLine_encoded]
  simp [trimReturns, hlast]

/-- Carriage returns inside a line stay, and those at its end go. -/
example : decodeLine "a\r\rb\r\r".toUTF8.data.toList = .text ['a', '\r', '\r', 'b'] := by
  decide +kernel

/-! ## Sources with other endings -/

/-- Two runs of bytes are the same but for the numbers of carriage returns in front of their line
feeds. -/
inductive SameEndings : List UInt8 → List UInt8 → Prop where
  | nil : SameEndings [] []
  | byte (next : UInt8) {first second : List UInt8} (hrest : SameEndings first second) :
      SameEndings (next :: first) (next :: second)
  | ending (returns others : Nat) {first second : List UInt8} (hrest : SameEndings first second) :
      SameEndings (List.replicate returns carriageReturn ++ lineFeed :: first)
        (List.replicate others carriageReturn ++ lineFeed :: second)

/-- A line feed behind some carriage returns ends a line that reads as if they were not there. -/
theorem decode_cutLines_ending (line : List UInt8) (returns : Nat) (rest : List UInt8) :
    (cutLines line [] (List.replicate returns carriageReturn ++ lineFeed :: rest)).map decodeLine =
      decodeLine line.reverse :: (cutLines [] [] rest).map decodeLine := by
  have hreturns : lineFeed ∉ List.replicate returns carriageReturn := by
    intro hmem
    exact absurd (List.eq_of_mem_replicate hmem) (by decide)
  rw [cutLines_append hreturns, cutLines, if_pos rfl, cutLines_lines, List.reverse_append,
    List.reverse_reverse, List.reverse_singleton, List.singleton_append, List.map_cons,
    decodeLine_append_returns]

theorem SameEndings.decode_cutLines {first second : List UInt8} (h : SameEndings first second)
    (line : List UInt8) :
    (cutLines line [] first).map decodeLine = (cutLines line [] second).map decodeLine := by
  induction h generalizing line with
  | nil => rfl
  | byte next hrest ih =>
    rw [cutLines, cutLines]
    by_cases hnext : next = lineFeed
    -- the line that ends here is the same on both sides
    · rw [if_pos hnext, if_pos hnext, cutLines_lines, cutLines_lines [] [line.reverse],
        List.map_append, List.map_append, ih]
    · rw [if_neg hnext, if_neg hnext, ih]
  | ending returns others hrest ih =>
    rw [decode_cutLines_ending, decode_cutLines_ending, ih]

/-- **Endings do not show.** Two sources are the same lines if they differ in nothing but the
carriage returns in front of their line feeds. -/
theorem SameEndings.ofBytes_eq {first second : List UInt8} (h : SameEndings first second) :
    ofBytes first = ofBytes second := h.decode_cutLines []

/-- Some bytes with a carriage return put in front of each line feed. -/
def withReturns (bytes : List UInt8) : List UInt8 :=
  bytes.flatMap fun byte => if byte = lineFeed then [carriageReturn, lineFeed] else [byte]

theorem sameEndings_withReturns (bytes : List UInt8) : SameEndings (withReturns bytes) bytes := by
  induction bytes with
  | nil => exact .nil
  | cons byte rest ih =>
    rw [withReturns, List.flatMap_cons]
    by_cases hbyte : byte = lineFeed
    · rw [if_pos hbyte, hbyte]
      exact .ending 1 0 ih
    · rw [if_neg hbyte]
      exact .byte byte ih

end Source

/-! ## Lexing and compiling -/

open Lexer (drain ofBytes replies)

/-- **Line endings are irrelevant.** A carriage return in front of each line feed of a source
changes nothing that can be observed: not what draining a lexer gives, tokens and errors with the
lines they are told at, not the line at which it ends, not the answer to any call on the way, and
nothing about a compilation into any sink. Its result and the compiler it leaves behind are the
same, with the bytes that were written, the name of the class and the symbol table. -/
theorem line_endings_irrelevant (bytes : List UInt8) :
    ((drain (ofBytes (Source.withReturns bytes))).1 = (drain (ofBytes bytes)).1 ∧
      (drain (ofBytes (Source.withReturns bytes))).2.lineNumber =
        (drain (ofBytes bytes)).2.lineNumber) ∧
    (∀ calls, replies (ofBytes (Source.withReturns bytes)) calls = replies (ofBytes bytes) calls) ∧
    ∀ sink, Compiler.compile (.start (ofBytes (Source.withReturns bytes)) sink) =
      Compiler.compile (.start (ofBytes bytes) sink) := by
  have hlexer : ofBytes (Source.withReturns bytes) = ofBytes bytes := by
    rw [ofBytes, (Source.sameEndings_withReturns bytes).ofBytes_eq, ofBytes]
  rw [hlexer]
  exact ⟨⟨rfl, rfl⟩, fun _ => rfl, fun _ => rfl⟩

end Jack
