import LastMatch.Proofs.Parsing

/-!
# Commands read character by character

A command is split by its UTF-8 bytes, but the rules of a shell speak of characters. `Characters`
reads them off the characters directly, looking ahead where the splitter would take a step into
another place: a backslash takes a whole character, and a character outside ASCII is never special.

* `Characters.words_eq_splitBy` — the reader finds what the splitter finds in characters; carried
  through by `Characters.follow`, what the reader makes of the text behind each place.
* `Editor.parse_by_characters` — a command has the same outcome in bytes and in characters. So the
  bytes of every word are a text.
-/

namespace LastMatch

open Utf8 Words

/-! ## A reader of characters -/

namespace Characters

/-- The characters that end a word. -/
def separators : List Char := [' ', '\t', '\n']

/-- The characters that a backslash between double quotation marks can quote. -/
def guarded : List Char := ['$', '`', '"', '\\']

mutual

/-- The words to come outside quotation marks. `w` is the word that has begun, if one has. -/
def words (w : Option (List Char)) : List Char → Option (List (List Char))
  | [] => some w.toList
  | '\\' :: [] => none
  | '\\' :: '\n' :: cs => words (some (w.getD [])) cs
  | '\\' :: c :: cs => words (some (w.getD [] ++ [c])) cs
  | '\'' :: cs => single (w.getD []) cs
  | '"' :: cs => double (w.getD []) cs
  | c :: cs =>
    if c ∈ separators then (words none cs).map (w.toList ++ ·)
    else if c = '#' ∧ w = none then comment cs
    else words (some (w.getD [] ++ [c])) cs

/-- The words behind a comment, which the next newline ends. -/
def comment : List Char → Option (List (List Char))
  | [] => some []
  | '\n' :: cs => words none cs
  | _ :: cs => comment cs

/-- The words to come in single quotation marks. The first goes on from `w`. -/
def single (w : List Char) : List Char → Option (List (List Char))
  | [] => none
  | '\'' :: cs => words (some w) cs
  | c :: cs => single (w ++ [c]) cs

/-- The words to come in double quotation marks. The first goes on from `w`. -/
def double (w : List Char) : List Char → Option (List (List Char))
  | [] => none
  | '"' :: cs => words (some w) cs
  | '\\' :: [] => none
  | '\\' :: '\n' :: cs => double w cs
  | '\\' :: c :: cs => double (w ++ if c ∈ guarded then [c] else ['\\', c]) cs
  | c :: cs => double (w ++ [c]) cs

end

example : words none "vi -c\\\té # \"é\\é\"'\\'\n".toList = some ["vi".toList, "-c\té".toList] := by
  decide

variable {a : Char} {w : List Char} {cs : List Char}

/-! ### Its rules, by the first character -/

theorem words_separator (o : Option (List Char)) (h : a ∈ separators) :
    words o (a :: cs) = (words none cs).map (o.toList ++ ·) := by
  simp only [separators, List.mem_cons, List.not_mem_nil, or_false] at h
  rcases h with rfl | rfl | rfl <;> rfl

theorem words_plain (o : Option (List Char)) (hb : a ≠ '\\') (hs : a ≠ '\'') (hd : a ≠ '"')
    (hsep : a ∉ separators) (hh : ¬ (a = '#' ∧ o = none)) :
    words o (a :: cs) = words (some (o.getD [] ++ [a])) cs := by
  rw [words]
  · rw [if_neg hsep, if_neg hh]
  all_goals simp [hb, hs, hd]

/-- A backslash begins a word where none has begun. -/
theorem words_backslash (o : Option (List Char)) (cs : List Char) :
    words o ('\\' :: cs) = words (some (o.getD [])) ('\\' :: cs) := by
  cases cs with
  | nil => rfl
  | cons a cs =>
      by_cases ha : a = '\n'
      · subst ha
        rfl
      · rw [words, words]
        · rfl
        all_goals exact ha

theorem words_escaped (o : Option (List Char)) (ha : a ≠ '\n') :
    words o ('\\' :: a :: cs) = words (some (o.getD [] ++ [a])) cs := by
  rw [words]
  exact ha

theorem comment_cons (ha : a ≠ '\n') : comment (a :: cs) = comment cs := by
  rw [comment]
  exact ha

theorem single_cons (ha : a ≠ '\'') : single w (a :: cs) = single (w ++ [a]) cs := by
  rw [single]
  exact ha

theorem double_cons (hd : a ≠ '"') (hb : a ≠ '\\') :
    double w (a :: cs) = double (w ++ [a]) cs := by
  rw [double]
  all_goals simp [hd, hb]

theorem double_backslash (ha : a ≠ '\n') :
    double w ('\\' :: a :: cs) = double (w ++ if a ∈ guarded then [a] else ['\\', a]) cs := by
  rw [double]
  exact ha

/-! ### Characters and symbols -/

theorem ofChar_eq_iff {k : Symbol} (hk : k ≠ .plain) (c : Char) :
    Symbol.ofChar c = k ↔ c ∈ k.bytes.map Char.ofUInt8 := by
  rw [List.mem_map]
  constructor
  · intro h
    have hc : c.toNat < 0x80 :=
      Nat.lt_of_not_le fun hle => hk (h.symm.trans (Symbol.ofCode_eq_plain hle))
    have hbyte : Symbol.ofByte c.toUInt8 = k := (Splitter.ofByte_toUInt8 hc).trans h
    exact ⟨c.toUInt8, (Symbol.ofByte_eq_iff hk _).mp hbyte, ofUInt8_toUInt8 hc⟩
  · rintro ⟨b, hb, rfl⟩
    exact Symbol.ofByte_of_mem_bytes hb

theorem ofChar_eq_blank_iff (c : Char) : Symbol.ofChar c = .blank ↔ c ∈ [' ', '\t'] :=
  ofChar_eq_iff (by decide) c

theorem ofChar_eq_dollar_iff (c : Char) : Symbol.ofChar c = .dollar ↔ c ∈ ['$', '`'] :=
  ofChar_eq_iff (by decide) c

theorem ofChar_eq_newline_iff (c : Char) : Symbol.ofChar c = .newline ↔ c = '\n' :=
  (ofChar_eq_iff (by decide) c).trans List.mem_singleton

theorem ofChar_eq_hash_iff (c : Char) : Symbol.ofChar c = .hash ↔ c = '#' :=
  (ofChar_eq_iff (by decide) c).trans List.mem_singleton

theorem ofChar_eq_backslash_iff (c : Char) : Symbol.ofChar c = .backslash ↔ c = '\\' :=
  (ofChar_eq_iff (by decide) c).trans List.mem_singleton

theorem ofChar_eq_apostrophe_iff (c : Char) : Symbol.ofChar c = .apostrophe ↔ c = '\'' :=
  (ofChar_eq_iff (by decide) c).trans List.mem_singleton

theorem ofChar_eq_quote_iff (c : Char) : Symbol.ofChar c = .quote ↔ c = '"' :=
  (ofChar_eq_iff (by decide) c).trans List.mem_singleton

theorem mem_separators_iff (c : Char) :
    c ∈ separators ↔ Symbol.ofChar c = .blank ∨ Symbol.ofChar c = .newline := by
  rw [ofChar_eq_blank_iff, ofChar_eq_newline_iff]
  simp [separators, or_assoc]

theorem mem_guarded_iff (c : Char) : c ∈ guarded ↔ (Symbol.ofChar c).isGuarded = true := by
  rw [Symbol.isGuarded_eq_true_iff, ofChar_eq_dollar_iff, ofChar_eq_quote_iff,
    ofChar_eq_backslash_iff]
  simp [guarded, or_assoc]

/-! ### The reader and the splitter -/

/-- What the reader makes of the text that follows a place of the splitter. -/
def follow : Place Char → List Char → Option (List (List Char))
  | .gap, cs => words none cs
  | .comment, cs => comment cs
  | .word w, cs => words (some w.reverse) cs
  | .escaped w, cs => words (some w.reverse) ('\\' :: cs)
  | .single w, cs => single w.reverse cs
  | .double w, cs => double w.reverse cs
  | .doubleEscaped w _, cs => double w.reverse ('\\' :: cs)

/-- A character that ends no word and starts no comment, read in the word that it belongs to. -/
theorem words_eq_follow_inWord (o : Option (List Char)) (hsep : a ∉ separators)
    (hh : ¬ (a = '#' ∧ o = none)) (cs : List Char) :
    words o (a :: cs) =
      follow (Splitter.inWord (o.getD []).reverse (Symbol.ofChar a) a) cs := by
  by_cases hb : a = '\\'
  · subst hb
    rw [words_backslash, Splitter.inWord_backslash rfl, follow, List.reverse_reverse]
  by_cases hs : a = '\''
  · subst hs
    rw [Splitter.inWord_apostrophe rfl, follow, List.reverse_reverse, words]
  by_cases hd : a = '"'
  · subst hd
    rw [Splitter.inWord_quote rfl, follow, List.reverse_reverse, words]
  · rw [words_plain o hb hs hd hsep hh,
      Splitter.inWord_of_ne (by rwa [ne_eq, ofChar_eq_backslash_iff])
        (by rwa [ne_eq, ofChar_eq_apostrophe_iff]) (by rwa [ne_eq, ofChar_eq_quote_iff]),
      follow, List.reverse_cons, List.reverse_reverse]

variable {c : List (List Char)}

/-- One character taken back: what the reader finds behind the place that it leads to is what it
finds, with the character, behind the place before. The words that the step completes are the first
of them. -/
theorem follow_step {p : Place Char} (hp : ∀ w b, p = .doubleEscaped w b → b = '\\') (a : Char)
    (cs : List Char) :
    (follow p (a :: cs)).map (c.reverse ++ ·) =
      (follow (Splitter.step Symbol.ofChar ⟨p, c⟩ a).place cs).map
        ((Splitter.step Symbol.ofChar ⟨p, c⟩ a).complete.reverse ++ ·) := by
  cases p with
  | gap =>
      by_cases hsep : a ∈ separators
      · rw [Splitter.step_gap_separator ((mem_separators_iff a).mp hsep)]
        show (words none (a :: cs)).map (c.reverse ++ ·) = (words none cs).map (c.reverse ++ ·)
        rw [words_separator none hsep]
        simp
      by_cases hh : a = '#'
      · subst hh
        rw [Splitter.step_gap_hash rfl]
        rfl
      · rw [Splitter.step_gap (by rwa [← mem_separators_iff]) (by rwa [ne_eq, ofChar_eq_hash_iff]),
          follow, words_eq_follow_inWord none hsep fun h => hh h.1]
        rfl
  | comment =>
      by_cases hn : a = '\n'
      · subst hn
        rw [Splitter.step_comment_newline rfl]
        rfl
      · rw [Splitter.step_comment (by rwa [ne_eq, ofChar_eq_newline_iff]), follow, comment_cons hn]
        rfl
  | word w =>
      by_cases hsep : a ∈ separators
      · rw [Splitter.step_word_separator ((mem_separators_iff a).mp hsep)]
        show (words (some w.reverse) (a :: cs)).map (c.reverse ++ ·) =
          (words none cs).map ((w.reverse :: c).reverse ++ ·)
        rw [words_separator (some w.reverse) hsep, Option.map_map]
        congr 1
        funext ws
        simp
      · rw [Splitter.step_word (by rwa [← mem_separators_iff]), follow,
          words_eq_follow_inWord (some w.reverse) hsep (by simp)]
        simp
  | escaped w =>
      by_cases hn : a = '\n'
      · subst hn
        rw [Splitter.step_escaped_newline rfl]
        rfl
      · rw [Splitter.step_escaped (by rwa [ne_eq, ofChar_eq_newline_iff])]
        show (words (some w.reverse) ('\\' :: a :: cs)).map _ = _
        rw [words_escaped _ hn, follow, List.reverse_cons]
        rfl
  | single w =>
      by_cases hs : a = '\''
      · subst hs
        rw [Splitter.step_single_apostrophe rfl]
        rfl
      · rw [Splitter.step_single (by rwa [ne_eq, ofChar_eq_apostrophe_iff]), follow,
          single_cons hs, follow, List.reverse_cons]
  | double w =>
      by_cases hd : a = '"'
      · subst hd
        rw [Splitter.step_double_quote rfl]
        rfl
      by_cases hb : a = '\\'
      · subst hb
        rw [Splitter.step_double_backslash rfl]
        rfl
      · rw [Splitter.step_double (by rwa [ne_eq, ofChar_eq_quote_iff])
          (by rwa [ne_eq, ofChar_eq_backslash_iff]), follow, double_cons hd hb, follow,
          List.reverse_cons]
  | doubleEscaped w b =>
      obtain rfl := hp w b rfl
      by_cases hn : a = '\n'
      · subst hn
        rw [Splitter.step_doubleEscaped_newline rfl]
        rfl
      rw [follow, double_backslash hn]
      by_cases hg : a ∈ guarded
      · rw [Splitter.step_doubleEscaped_guarded ((mem_guarded_iff a).mp hg), if_pos hg, follow,
          List.reverse_cons]
      · rw [Splitter.step_doubleEscaped (by rwa [ne_eq, ofChar_eq_newline_iff])
          (by rwa [← Bool.not_eq_true, ← mem_guarded_iff]), if_neg hg, follow]
        simp

/-- At the end of the text nothing is to come, and so the splitter may end exactly where the reader
may. -/
theorem follow_nil {p : Place Char} (hp : ∀ w b, p = .doubleEscaped w b → b = '\\') :
    (follow p []).map (c.reverse ++ ·) = Splitter.finish ⟨p, c⟩ := by
  cases p with
  | doubleEscaped w b =>
      obtain rfl := hp w b rfl
      rfl
  | gap | comment => simp [follow, words, comment, Splitter.finish]
  | word w => simp [follow, words, Splitter.finish]
  | escaped w | single w | double w => rfl

theorem finish_run {p : Place Char} (hp : ∀ w b, p = .doubleEscaped w b → b = '\\')
    (cs : List Char) :
    (Splitter.run Symbol.ofChar ⟨p, c⟩ cs).finish = (follow p cs).map (c.reverse ++ ·) := by
  induction cs generalizing p c with
  | nil => exact (follow_nil hp).symm
  | cons a cs ih =>
      rw [Splitter.run_cons, follow_step hp]
      refine ih fun w b h => ?_
      obtain ⟨rfl, ha⟩ := Splitter.of_step_doubleEscaped h
      exact (ofChar_eq_backslash_iff a).mp ha

/-- **The reader finds the words that the splitter finds in characters.** -/
theorem words_eq_splitBy (cs : List Char) : words none cs = splitBy Symbol.ofChar cs := by
  have hrun : splitBy Symbol.ofChar cs = (follow .gap cs).map (([] : List _).reverse ++ ·) :=
    finish_run (by simp) cs
  rw [hrun]
  simp [follow]

end Characters

/-! ## Commands -/

namespace Editor

/-- The words of a command, read from its characters. -/
def words? (command : String) : Option (List String) :=
  (Characters.words none (Text.trimChars command.toList)).map (List.map String.ofList)

/-- The outcome of a command whose words are read from its characters. -/
def parseCharacters (command : String) : Except LaunchError Editor :=
  match words? command with
  | none => .error (.invalidSyntax (Text.trim command))
  | some vs => ofWords vs

/-- The words of the bytes are the bytes of the words. -/
theorem split_encode_trim (command : String) :
    split (encode (Text.trim command)) = (words? command).map (List.map encode) := by
  have hencode : List.map encode ∘ List.map String.ofList = List.map encodeChars := by
    funext vs
    rw [Function.comp_apply, List.map_map]
    exact List.map_congr_left fun v _ => encode_ofList v
  rw [encode, Text.toList_trim, split_encodeChars, words?, Characters.words_eq_splitBy,
    Option.map_map, hencode]

theorem parse_eq_parseCharacters (command : String) :
    parse (some command) = parseCharacters command := by
  have hsplit := split_encode_trim command
  rw [parse_some, parseCharacters]
  cases hw : words? command with
  | none =>
      rw [hw] at hsplit
      exact ofTrimmed_of_split_none hsplit
  | some vs =>
      rw [hw] at hsplit
      exact ofTrimmed_of_split hsplit

/-- The bytes of a text are decoded and encoded without loss. -/
theorem encode_decodeLossy {w : Bytes} (h : IsText w) : encode (decodeLossy w) = w := by
  obtain ⟨cs, rfl⟩ := h
  rw [← encode_ofList, decodeLossy_encode]

/-- **Splitting bytes is splitting characters.** For every command the outcome is that of a reader
of its characters: the words of the bytes are the encoded words of the characters, an editor is made
from these, and a wrong syntax or a missing program is one on both sides. So each word that is found
among the bytes is a text, and nothing is replaced where it is decoded. -/
theorem parse_by_characters (command : String) :
    parse (some command) = parseCharacters command ∧
    split (encode (Text.trim command)) = (words? command).map (List.map encode) ∧
    (∀ program args, (∃ h, parse (some command) = .ok ⟨program, args, h⟩) ↔
      program ≠ "" ∧ words? command = some (program :: args)) ∧
    (parse (some command) = .error .notConfigured ↔
      words? command = some [] ∨ ∃ vs, words? command = some ("" :: vs)) ∧
    ((∃ text, parse (some command) = .error (.invalidSyntax text)) ↔ words? command = none) ∧
    ∀ ws, split (encode (Text.trim command)) = some ws →
      ∀ w ∈ ws, IsText w ∧ encode (decodeLossy w) = w := by
  have hparse := parse_eq_parseCharacters command
  have htexts : ∀ ws, split (encode (Text.trim command)) = some ws →
      ∀ w ∈ ws, IsText w ∧ encode (decodeLossy w) = w := by
    intro ws hws w hw
    have htext := isText_of_split (isText_encode _) hws w hw
    exact ⟨htext, encode_decodeLossy htext⟩
  refine ⟨hparse, split_encode_trim command, ?_⟩
  rw [hparse, parseCharacters]
  cases words? command with
  | none => exact ⟨by simp, by simp, by simp, htexts⟩
  | some vs =>
      refine ⟨?_, ?_, ?_, htexts⟩
      · intro program args
        rw [Option.some_inj]
        exact ofWords_eq_ok_iff
      · simp only [Option.some_inj]
        exact ofWords_eq_notConfigured_iff
      · simp [ofWords_ne_invalidSyntax]

end Editor

end LastMatch
