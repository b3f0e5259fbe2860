/-
One token of lookahead.

A rule of the grammar decides what comes next by the current token alone. What it can know of a
list of tokens is those that it moved over and the one behind them (`LooksLike`). `Recognises`
says that this is enough: if the rule succeeds, it moved over a sentence of its language, and no
other sentence of the language looks the same; if it complains about the current token, what it
moved over begins a sentence, and no sentence at all looks the same. What may stand behind the
sentences is part of the statement, since it is the token behind a sentence that ends it.

Languages are sets of token lists, with concatenation as their product. A sequence of actions
recognises a product (`Recognises.bind`), a choice by the current token a sum (`recognises_if`),
and a loop any language that is one round and then the language again (`Loops.recognises`). The
side conditions are those of a grammar that can be read with one token of lookahead: what may
stand behind a sentence does not begin like another round, and no two summands begin alike.
-/
import Mathlib.Computability.Language
import Jack.Proofs.Actions
import Jack.Proofs.EveryRun

set_option autoImplicit false

namespace Jack.Compiler

open Vm (Command)

variable {α β : Type} {bound : Nat} {language other round : Language Token}
  {follow followed : List Token → Prop} {tokens moved rest text : List Token}

/-! ## What a rule can tell apart -/

/-- A list of tokens looks like the one ahead to a rule that moved over some tokens: it begins
with these, and then comes the same token, or none in both. -/
def LooksLike (moved rest text : List Token) : Prop :=
  ∃ behind, text = moved ++ behind ∧ behind.head? = rest.head?

/-- What looks the same begins with the same token. -/
theorem LooksLike.head?_eq (h : LooksLike moved rest text) :
    text.head? = (moved ++ rest).head? := by
  obtain ⟨behind, rfl, hhead⟩ := h
  cases moved with
  | nil => exact hhead
  | cons token others => rfl

/-- What looks the same in the end looked the same on the way. -/
theorem LooksLike.of_append {first second : List Token}
    (h : LooksLike (first ++ second) rest text) : LooksLike first (second ++ rest) text := by
  obtain ⟨behind, rfl, hhead⟩ := h
  refine ⟨second ++ behind, List.append_assoc .., ?_⟩
  cases second with
  | nil => exact hhead
  | cons token others => rfl

/-- Behind what is the same, the rest looks the same. -/
theorem LooksLike.of_append_left {first second : List Token}
    (h : LooksLike (first ++ second) rest (first ++ text)) : LooksLike second rest text := by
  obtain ⟨behind, htext, hhead⟩ := h
  rw [List.append_assoc] at htext
  exact ⟨behind, List.append_cancel_left htext, hhead⟩

/-- The tokens moved over are a sentence, and the only one that looks like the tokens ahead. -/
structure Matched (language : Language Token) (follow : List Token → Prop)
    (moved rest : List Token) : Prop where
  mem : moved ∈ language
  only : ∀ text ∈ language, ∀ behind, follow behind →
    LooksLike moved rest (text ++ behind) → text = moved

/-- The tokens moved over begin a sentence, but no sentence looks like the tokens ahead. -/
structure Refused (language : Language Token) (follow : List Token → Prop)
    (moved rest : List Token) : Prop where
  begins : ∃ more, moved ++ more ∈ language
  none : ∀ text ∈ language, ∀ behind, follow behind → ¬ LooksLike moved rest (text ++ behind)

section

variable {first second : List Token}
  (hfollow : ∀ text ∈ other, ∀ behind, followed behind → follow (text ++ behind))

include hfollow

/-- A sentence of a product looks like one of its first factor, with one of the second behind. -/
theorem Matched.eq_first (h : Matched language follow first (second ++ rest)) {text : List Token}
    (htext : text ∈ language * other) {behind : List Token} (hbehind : followed behind)
    (hlooks : LooksLike (first ++ second) rest (text ++ behind)) :
    ∃ more ∈ other, text = first ++ more ∧ LooksLike second rest (more ++ behind) := by
  obtain ⟨begin, hbegin, more, hmore, rfl⟩ := Language.mem_mul.1 htext
  rw [List.append_assoc] at hlooks
  -- up to the end of the first factor the two look the same, and there is only one such sentence
  obtain rfl := h.only begin hbegin _ (hfollow more hmore behind hbehind) hlooks.of_append
  exact ⟨more, hmore, rfl, hlooks.of_append_left⟩

/-- A sentence and a sentence of another language behind it are a sentence of the product, and the
only one that looks so. -/
theorem Matched.mul (h : Matched language follow first (second ++ rest))
    (h' : Matched other followed second rest) :
    Matched (language * other) followed (first ++ second) rest where
  mem := Language.append_mem_mul h.mem h'.mem
  only := by
    intro text htext behind hbehind hlooks
    obtain ⟨more, hmore, rfl, hlooks'⟩ := h.eq_first hfollow htext hbehind hlooks
    rw [h'.only more hmore behind hbehind hlooks']

/-- If the second factor refuses what stands behind a sentence of the first, the product refuses
it. -/
theorem Matched.mul_refused (h : Matched language follow first (second ++ rest))
    (h' : Refused other followed second rest) :
    Refused (language * other) followed (first ++ second) rest where
  begins := by
    obtain ⟨more, hmore⟩ := h'.begins
    exact ⟨more, List.append_assoc first second more ▸ Language.append_mem_mul h.mem hmore⟩
  none := by
    intro text htext behind hbehind hlooks
    obtain ⟨more, hmore, rfl, hlooks'⟩ := h.eq_first hfollow htext hbehind hlooks
    exact h'.none more hmore behind hbehind hlooks'

/-- If the first factor refuses the tokens, the product does. What was read begins a sentence of the
product, since the second factor has sentences. -/
theorem Refused.mul (h : Refused language follow moved rest) (hother : ∃ text, text ∈ other) :
    Refused (language * other) followed moved rest where
  begins := by
    obtain ⟨more, hmore⟩ := h.begins
    obtain ⟨last, hlast⟩ := hother
    exact ⟨more ++ last, List.append_assoc moved more last ▸ Language.append_mem_mul hmore hlast⟩
  none := by
    intro text htext behind hbehind hlooks
    obtain ⟨begin, hbegin, more, hmore, rfl⟩ := Language.mem_mul.1 htext
    rw [List.append_assoc] at hlooks
    exact h.none begin hbegin _ (hfollow more hmore behind hbehind) hlooks

end

/-! ## What a run settles -/

/-- An error names the current token, or the end of the input, and the line of the lexer. -/
structure Blames (reached : Compiler) (line : Nat) (found : String) : Prop where
  line_eq : line = reached.lexer.lineNumber
  found_eq : found = (reached.current.map Token.render).getD "end of input"

/-- What the end of a run says about the tokens that were ahead at its beginning. Errors that
are not about the current token say nothing. -/
structure Settles (language : Language Token) (follow : List Token → Prop) (tokens : List Token)
    (result : EStateM.Result Error Compiler α) : Prop where
  ok : ∀ value reached, result = .ok value reached → ∃ moved rest,
    tokens = moved ++ rest ∧ reached.Ahead rest ∧ Matched language follow moved rest
  expected : ∀ line wanted found reached,
    result = .error (.expected line wanted found) reached → Blames reached line found ∧
      ∃ moved rest, tokens = moved ++ rest ∧ reached.Ahead rest ∧
        Refused language follow moved rest

/-- What begins otherwise than the tokens ahead can be added to a language or left out. -/
theorem Settles.of_heads {result : EStateM.Result Error Compiler α}
    (h : Settles language follow tokens result) (hsub : ∀ text ∈ language, text ∈ other)
    (hheads : ∀ text ∈ other, ∀ behind, follow behind →
      (text ++ behind).head? = tokens.head? → text ∈ language) :
    Settles other follow tokens result where
  ok := by
    intro value reached hresult
    obtain ⟨moved, rest, rfl, hahead, hmatched⟩ := h.ok value reached hresult
    refine ⟨moved, rest, rfl, hahead, hsub _ hmatched.mem, ?_⟩
    intro text htext behind hbehind hlooks
    exact hmatched.only text (hheads text htext behind hbehind hlooks.head?_eq) behind hbehind hlooks
  expected := by
    intro line wanted found reached hresult
    obtain ⟨hblames, moved, rest, rfl, hahead, hrefused⟩ := h.expected _ _ _ _ hresult
    obtain ⟨more, hmore⟩ := hrefused.begins
    refine ⟨hblames, moved, rest, rfl, hahead, ⟨more, hsub _ hmore⟩, ?_⟩
    intro text htext behind hbehind hlooks
    exact hrefused.none text (hheads text htext behind hbehind hlooks.head?_eq) behind hbehind hlooks

/-- A sequence settles a product, if what the second half settles can stand behind the first. -/
theorem Settles.bind {action : CompileM α} {next : α → CompileM β} {compiler : Compiler}
    (hfirst : Settles language follow tokens (action compiler))
    (hnext : ∀ value reached moved rest, tokens = moved ++ rest → moved ∈ language →
      reached.Ahead rest → Settles other followed rest (next value reached))
    (hother : ∃ text, text ∈ other)
    (hfollow : ∀ text ∈ other, ∀ behind, followed behind → follow (text ++ behind)) :
    Settles (language * other) followed tokens ((action >>= next) compiler) where
  ok := by
    intro value final hrun
    obtain ⟨found, reached, hrunFirst, hrunNext⟩ := bind_ok_iff.1 hrun
    obtain ⟨first, behind, rfl, hahead, hmatched⟩ := hfirst.ok _ _ hrunFirst
    obtain ⟨second, rest, rfl, hahead', hmatched'⟩ :=
      (hnext found reached first behind rfl hmatched.mem hahead).ok _ _ hrunNext
    exact ⟨first ++ second, rest, (List.append_assoc ..).symm, hahead',
      hmatched.mul hfollow hmatched'⟩
  expected := by
    intro line wanted text final hrun
    rcases bind_error_cases hrun with hrunFirst | ⟨found, reached, hrunFirst, hrunNext⟩
    · -- what was read begins a sentence of the product because the second factor has one
      obtain ⟨hblames, moved, rest, htokens, hahead, hrefused⟩ := hfirst.expected _ _ _ _ hrunFirst
      exact ⟨hblames, moved, rest, htokens, hahead, hrefused.mul hfollow hother⟩
    · obtain ⟨first, behind, rfl, hahead, hmatched⟩ := hfirst.ok _ _ hrunFirst
      obtain ⟨hblames, second, rest, rfl, hahead', hrefused⟩ :=
        (hnext found reached first behind rfl hmatched.mem hahead).expected _ _ _ _ hrunNext
      exact ⟨hblames, first ++ second, rest, (List.append_assoc ..).symm, hahead',
        hmatched.mul_refused hfollow hrefused⟩

/-- Complaining settles a language that has no sentence which begins like the tokens ahead. -/
theorem settles_unexpected {compiler : Compiler} (hahead : compiler.Ahead tokens)
    (hlanguage : ∃ text, text ∈ language)
    (hheads : ∀ text ∈ language, ∀ behind, follow behind → (text ++ behind).head? ≠ tokens.head?)
    (wanted : String) :
    Settles language follow tokens (unexpected wanted compiler : EStateM.Result _ _ α) where
  ok := fun _ _ hrun => absurd hrun unexpected_ne_ok
  expected := by
    rintro line _ found _ ⟨⟩
    refine ⟨⟨rfl, ?_⟩, [], tokens, rfl, hahead, hlanguage, ?_⟩
    · cases compiler.current <;> rfl
    · intro text htext behind hbehind hlooks
      exact hheads text htext behind hbehind hlooks.head?_eq

/-- Going nowhere settles that the empty sentence stands in front of the tokens ahead. -/
theorem settles_nothing {compiler : Compiler} (hahead : compiler.Ahead tokens) (value : α) :
    Settles 1 follow tokens (.ok value compiler) where
  ok := by
    rintro _ _ ⟨⟩
    exact ⟨[], tokens, rfl, hahead, Language.nil_mem_one, fun _ htext _ _ _ => htext⟩
  expected := fun _ _ _ _ hrun => nomatch hrun

/-! ## Recognising a language -/

/-- From every state, an action settles what a language has to say about the tokens ahead, as
long as these are not too many. -/
structure Recognises (bound : Nat) (language : Language Token) (follow : List Token → Prop)
    (action : CompileM α) : Prop where
  inhabited : ∃ text, text ∈ language
  settles : ∀ (compiler : Compiler) (tokens : List Token), tokens.length ≤ bound →
    compiler.Ahead tokens → Settles language follow tokens (action compiler)

/-- The same from the states whose current token is a given one. -/
def RecognisesFrom (token : Token) (bound : Nat) (language : Language Token)
    (follow : List Token → Prop) (action : CompileM α) : Prop :=
  ∀ (compiler : Compiler) (rest : List Token), (token :: rest).length ≤ bound →
    compiler.Ahead (token :: rest) → Settles language follow (token :: rest) (action compiler)

section

variable {action : CompileM α} {next : α → CompileM β} {token : Token}

theorem Recognises.mono {fewer : Nat} (h : Recognises bound language follow action)
    (hle : fewer ≤ bound) : Recognises fewer language follow action :=
  ⟨h.inhabited, fun compiler tokens hlength => h.settles compiler tokens (hlength.trans hle)⟩

/-- Doing nothing recognises the empty sentence. -/
theorem recognises_pure (value : α) : Recognises bound 1 follow (pure value : CompileM α) where
  inhabited := ⟨[], Language.nil_mem_one⟩
  settles := fun _ _ _ hahead => settles_nothing hahead value

/-- **Sequences.** One action after the other recognises the product of their languages, if what the
second one reads can stand behind what the first one reads. -/
theorem Recognises.bind [Nonempty α] (hfirst : Recognises bound language follow action)
    (hnext : ∀ value, Recognises bound other followed (next value))
    (hfollow : ∀ text ∈ other, ∀ behind, followed behind → follow (text ++ behind)) :
    Recognises bound (language * other) followed (action >>= next) where
  inhabited := by
    obtain ⟨first, hmem⟩ := hfirst.inhabited
    obtain ⟨second, hmem'⟩ := (hnext (Classical.arbitrary α)).inhabited
    exact ⟨first ++ second, Language.append_mem_mul hmem hmem'⟩
  settles := by
    intro compiler tokens hlength hahead
    refine (hfirst.settles compiler tokens hlength hahead).bind ?_
      (hnext (Classical.arbitrary α)).inhabited hfollow
    rintro value reached moved rest rfl - hahead'
    refine (hnext value).settles reached rest (Nat.le_trans ?_ hlength) hahead'
    rw [List.length_append]
    exact Nat.le_add_left _ _

/-- Anything can stand behind a sentence that ends by itself. -/
theorem Recognises.bind_closed [Nonempty α] (hfirst : Recognises bound language (fun _ => True) action)
    (hnext : ∀ value, Recognises bound other followed (next value)) :
    Recognises bound (language * other) followed (action >>= next) :=
  hfirst.bind hnext fun _ _ _ _ => trivial

theorem Recognises.at_token (h : Recognises bound language follow action) (token : Token) :
    RecognisesFrom token bound language follow action :=
  fun compiler rest => h.settles compiler (token :: rest)

theorem RecognisesFrom.mono {fewer : Nat} (h : RecognisesFrom token bound language follow action)
    (hle : fewer ≤ bound) : RecognisesFrom token fewer language follow action :=
  fun compiler rest hlength => h compiler rest (hlength.trans hle)

/-- From a given token it is enough to know what can stand behind it. -/
theorem RecognisesFrom.of_tails {tails : Language Token}
    (h : RecognisesFrom token bound ({[token]} * tails) follow action)
    (htails : ∀ tail, token :: tail ∈ language ↔ tail ∈ tails)
    (hne : ∀ text ∈ language, text ≠ []) : RecognisesFrom token bound language follow action := by
  intro compiler rest hlength hahead
  refine (h compiler rest hlength hahead).of_heads ?_ ?_
  · rintro _ ⟨_, rfl, tail, htail, rfl⟩
    exact (htails tail).2 htail
  · intro text htext behind _ hhead
    cases text with
    | nil => exact absurd rfl (hne [] htext)
    | cons first tail =>
      obtain rfl : first = token := Option.some.inj hhead
      exact ⟨[first], rfl, tail, (htails tail).1 htext, rfl⟩

/-- It is enough to look at what an action does with each token that can come next, and at the
end of the input. -/
theorem recognises_of_tokens (hlanguage : ∃ text, text ∈ language)
    (hnone : ∀ compiler, compiler.current = none → Settles language follow [] (action compiler))
    (hsome : ∀ token, RecognisesFrom token bound language follow action) :
    Recognises bound language follow action where
  inhabited := hlanguage
  settles := by
    intro compiler tokens hlength hahead
    cases tokens with
    | nil => exact hnone compiler hahead
    | cons token rest => exact hsome token compiler rest hlength hahead

/-- A look at the state finds the current token. -/
theorem recognisesFrom_look {next : Compiler → CompileM β}
    (hnext : ∀ compiler, compiler.current = some token →
      RecognisesFrom token bound language follow (next compiler)) :
    RecognisesFrom token bound language follow (Actions.look >>= next) :=
  fun compiler rest hlength hahead => hnext compiler hahead.1 compiler rest hlength hahead

/-! ## Single tokens -/

/-- Moving over the current token reads the sentence that consists of it. -/
theorem settles_advance {compiler : Compiler} (hahead : compiler.Ahead (token :: rest)) :
    Settles {[token]} follow (token :: rest) (advance compiler) := by
  obtain ⟨reached, hrun, hreached⟩ := advance_reached hahead
  rw [hrun]
  constructor
  · rintro _ _ ⟨⟩
    exact ⟨[token], rest, rfl, hreached.ahead, rfl, fun _ htext _ _ _ => htext⟩
  · exact fun _ _ _ _ hrun => nomatch hrun

/-- Expecting a token moves over it, or complains about the one that is there. -/
theorem settles_expect {compiler : Compiler} (hahead : compiler.Ahead tokens) :
    Settles {[token]} follow tokens (expect token compiler) := by
  by_cases hcurrent : compiler.current = some token
  · have hexpect : expect token compiler = advance compiler := by
      rw [expect, look_bind, hcurrent, beq_self_eq_true, if_pos rfl, move_eq]
    rw [hexpect]
    cases tokens with
    | nil =>
      rw [show compiler.current = none from hahead] at hcurrent
      cases hcurrent
    | cons first rest =>
      obtain rfl : first = token := Option.some.inj (hahead.1.symm.trans hcurrent)
      exact settles_advance hahead
  · have hexpect : expect token compiler = unexpected token.render compiler := by
      rw [expect, look_bind, if_neg (by simpa using hcurrent), still_eq]
    rw [hexpect]
    have hmem : [token] ∈ ({[token]} : Language Token) := rfl
    refine settles_unexpected hahead ⟨_, hmem⟩ ?_ _
    rintro _ rfl behind -
    rw [← hahead.current_eq]
    exact Ne.symm hcurrent

theorem recognises_expect (token : Token) : Recognises bound {[token]} follow (expect token) :=
  ⟨⟨[token], rfl⟩, fun _ _ _ hahead => settles_expect hahead⟩

/-- Behind a token that was moved over there is one less ahead. -/
theorem settles_after_token {first : CompileM Unit} {next : Unit → CompileM β} {compiler : Compiler}
    (hlength : tokens.length ≤ bound + 1)
    (hfirst : Settles {[token]} (fun _ => True) tokens (first compiler))
    (hnext : Recognises bound language follow (next ())) :
    Settles ({[token]} * language) follow tokens ((first >>= next) compiler) := by
  refine hfirst.bind ?_ hnext.inhabited fun _ _ _ _ => trivial
  rintro _ reached _ rest rfl rfl hahead
  exact hnext.settles reached rest (Nat.le_of_succ_le_succ hlength) hahead

theorem recognises_expect_bind {next : Unit → CompileM β}
    (hnext : Recognises bound language follow (next ())) :
    Recognises (bound + 1) ({[token]} * language) follow (expect token >>= next) where
  inhabited := by
    obtain ⟨text, htext⟩ := hnext.inhabited
    exact ⟨[token] ++ text, Language.append_mem_mul rfl htext⟩
  settles := fun _ _ hlength hahead => settles_after_token hlength (settles_expect hahead) hnext

theorem recognisesFrom_advance {next : Unit → CompileM β}
    (hnext : Recognises bound language follow (next ())) :
    RecognisesFrom token (bound + 1) ({[token]} * language) follow (advance >>= next) :=
  fun _ _ hlength hahead => settles_after_token hlength (settles_advance hahead) hnext

/-- A rule between two symbols, if the closing one can stand behind the rule. -/
theorem recognises_between [Nonempty α] {rule : CompileM α}
    (hrule : Recognises bound language follow rule) {opening closing : Char}
    (hclosing : ∀ behind, follow (.symbol closing :: behind)) :
    Recognises (bound + 1) ({[.symbol opening]} * (language * {[.symbol closing]})) followed
      (between opening rule closing) := by
  apply recognises_expect_bind
  refine hrule.bind (fun value => ?_) ?_
  · have hexpect : Recognises bound {[.symbol closing]} (fun _ => True) (expectSymbol closing) :=
      recognises_expect _
    have hlast : Recognises bound ({[.symbol closing]} * 1) followed
        (expectSymbol closing >>= fun _ => pure value) :=
      hexpect.bind (fun _ => recognises_pure value) fun _ _ _ _ => trivial
    rwa [mul_one] at hlast
  · rintro _ rfl behind -
    exact hclosing behind

end

/-! ## Choices -/

/-- A choice by the current token: the sentences of the first language begin with a token of
the kind that is looked for, and those of the second do not. -/
theorem recognises_choice (chosen : Token → Bool) {action first second : CompileM α}
    (haction : ∀ compiler, action compiler =
      (if compiler.current.any chosen then first else second) compiler)
    (hfirst : ∀ token, chosen token = true → RecognisesFrom token bound language follow first)
    (hsecond : Recognises bound other follow second)
    (hhere : ∀ text ∈ language, ∀ behind, follow behind →
      (text ++ behind).head?.any chosen = true)
    (hthere : ∀ text ∈ other, ∀ behind, follow behind →
      (text ++ behind).head?.any chosen = false) :
    Recognises bound (language + other) follow action where
  inhabited := by
    obtain ⟨text, htext⟩ := hsecond.inhabited
    exact ⟨text, .inr htext⟩
  settles := by
    intro compiler tokens hlength hahead
    rw [haction, hahead.current_eq]
    -- the sentences of the other summand begin otherwise, so they can be added
    cases hchosen : tokens.head?.any chosen with
    | true =>
      rw [if_pos rfl]
      cases tokens with
      | nil => cases hchosen
      | cons token rest =>
        refine (hfirst token hchosen compiler rest hlength hahead).of_heads (fun _ => .inl) ?_
        rintro text (htext | htext) behind hbehind hhead
        · exact htext
        · have hother := hthere text htext behind hbehind
          rw [hhead, hchosen] at hother
          cases hother
    | false =>
      rw [if_neg Bool.false_ne_true]
      refine (hsecond.settles compiler tokens hlength hahead).of_heads (fun _ => .inr) ?_
      rintro text (htext | htext) behind hbehind hhead
      · rw [← hhead, hhere text htext behind hbehind] at hchosen
        cases hchosen
      · exact htext

/-- A choice by whether one token comes next, given as one of the two ways to look at it. -/
theorem recognises_if {look : CompileM Bool} {token : Token} {first second : CompileM α}
    (hlook : ∀ (next : Bool → CompileM α) (compiler : Compiler),
      (look >>= next) compiler = next (compiler.current == some token) compiler)
    (hfirst : RecognisesFrom token bound language follow first)
    (hsecond : Recognises bound other follow second)
    (hhere : ∀ text ∈ language, ∀ behind, follow behind → (text ++ behind).head? = some token)
    (hthere : ∀ text ∈ other, ∀ behind, follow behind → (text ++ behind).head? ≠ some token) :
    Recognises bound (language + other) follow
      (look >>= fun found => if found then first else second) := by
  have hany : ∀ current : Option Token, current.any (· == token) = (current == some token) := by
    intro current
    cases current <;> rfl
  have hchoice : ∀ compiler, (look >>= fun found => if found then first else second) compiler =
      (if compiler.current.any (· == token) then first else second) compiler := by
    intro compiler
    rw [hlook, hany]
  refine recognises_choice (· == token) hchoice ?_ hsecond ?_ ?_
  · intro next hnext
    rwa [eq_of_beq hnext]
  · intro text htext behind hbehind
    rw [hany, hhere text htext behind hbehind, beq_self_eq_true]
  · intro text htext behind hbehind
    rw [hany, beq_eq_false_iff_ne]
    exact hthere text htext behind hbehind

/-! ## Loops -/

/-- A loop goes round as long as the current token begins a round, and it carries a value from
round to round. -/
structure Loops {γ σ : Type} (head : Token → Option α) (step : α → CompileM γ) (next : σ → γ → σ)
    (loop : σ → Nat → CompileM β) : Prop where
  stop : ∀ carried budget compiler, compiler.current.bind head = none →
    ∃ value, loop carried budget compiler = .ok value compiler
  go : ∀ carried budget compiler found, compiler.current.bind head = some found →
    loop carried (budget + 1) compiler =
      (step found >>= fun value => loop (next carried value) budget) compiler

/-- A loop of rules carries nothing from round to round. -/
theorem many_loops (head : Token → Option α) (rule : α → CompileM Unit) :
    Loops head rule (fun _ _ => ()) (fun _ : Unit => many head rule) where
  stop := fun _ budget _ hnone => ⟨(), many_stop hnone budget⟩
  go := by
    intro _ budget compiler found hfound
    rw [many, look_bind, hfound]

/-- What begins another item of a list. -/
def comma? (token : Token) : Option Unit := if token = .symbol ',' then some () else none

theorem comma?_eq_none_iff {token : Token} : comma? token = none ↔ token ≠ .symbol ',' := by
  simp [comma?]

/-- A list with commas carries the items that it has read, last one first. -/
theorem commaListFrom_loops (item : CompileM α) :
    Loops comma? (fun _ => advance >>= fun _ => item) (fun found value => value :: found)
      (commaListFrom item) where
  stop := by
    intro found budget compiler hnone
    refine ⟨found.reverse, commaListFrom_stop found ?_ budget⟩
    intro hcurrent
    rw [hcurrent, Option.bind_some, comma?_eq_none_iff] at hnone
    exact hnone rfl
  go := by
    intro found budget compiler _ hsome
    have hcurrent : compiler.current = some (.symbol ',') := by
      obtain ⟨token, htoken, hcomma⟩ := Option.bind_eq_some_iff.1 hsome
      rw [htoken, show token = .symbol ',' by simpa [comma?] using hcomma]
    rw [commaListFrom, atSymbol_bind, hcurrent, beq_self_eq_true, if_pos rfl, move_eq, bind_assoc]

section

variable {head : Token → Option α}
  (hloop : language = 1 + round * language)
  (hheads : ∀ text ∈ round, ∃ token rest, text = token :: rest ∧ (head token).isSome)

include hloop

/-- A loop can have no round at all. -/
theorem nil_mem_loop : [] ∈ language := by
  rw [hloop]
  exact .inl rfl

include hheads

/-- A sentence of a loop is empty, or it begins with a round. -/
theorem begins_with_round (htext : text ∈ language) :
    text = [] ∨ text ∈ round * language ∧ ∃ token ∈ text.head?, (head token).isSome := by
  rw [hloop] at htext
  rcases htext with hnil | htext
  · exact .inl hnil
  · obtain ⟨first, hfirst, more, -, rfl⟩ := Language.mem_mul.1 htext
    obtain ⟨token, rest, rfl, htoken⟩ := hheads first hfirst
    exact .inr ⟨htext, token, rfl, htoken⟩

/-- Where no round begins, the loop ends. -/
theorem settles_loop_end {compiler : Compiler} (hahead : compiler.Ahead tokens)
    (hnone : compiler.current.bind head = none) (value : β) :
    Settles language follow tokens (.ok value compiler) := by
  refine (settles_nothing hahead value).of_heads ?_ ?_
  · rintro _ rfl
    exact nil_mem_loop hloop
  · intro text htext behind _ hhead
    rcases begins_with_round hloop hheads htext with hnil | ⟨-, token, htoken, hround⟩
    · exact hnil
    · -- the tokens ahead begin with a round if a sentence that looks like them does
      rw [List.head?_append_of_ne_nil _ (List.ne_nil_of_mem (List.mem_of_mem_head? htoken)),
        ← hahead.current_eq] at hhead
      rw [← hhead, show text.head? = some token from htoken, Option.bind_some] at hnone
      rw [hnone] at hround
      cases hround

/-- Every round moves over a token, so a budget for the rounds is enough if it is one for the
tokens. -/
theorem Loops.settles {γ σ : Type} {step : α → CompileM γ} {next : σ → γ → σ}
    {loop : σ → Nat → CompileM β} (h : Loops head step next loop)
    (hstep : ∀ token found, head token = some found →
      RecognisesFrom token bound round followed (step found))
    (hfollow : ∀ behind, follow behind → ∀ token ∈ behind.head?, head token = none)
    (hbehind : ∀ text ∈ language, ∀ behind, follow behind → followed (text ++ behind))
    {budget : Nat} (carried : σ) {compiler : Compiler} (hbound : tokens.length ≤ bound)
    (hbudget : tokens.length ≤ budget) (hahead : compiler.Ahead tokens) :
    Settles language follow tokens (loop carried budget compiler) := by
  induction budget generalizing carried compiler tokens with
  | zero =>
    obtain rfl := List.length_eq_zero_iff.1 (Nat.le_zero.1 hbudget)
    have hnone : compiler.current.bind head = none := by
      rw [show compiler.current = none from hahead, Option.bind_none]
    obtain ⟨value, hrun⟩ := h.stop carried 0 compiler hnone
    rw [hrun]
    exact settles_loop_end hloop hheads hahead hnone value
  | succ budget ih =>
    cases hfound : compiler.current.bind head with
    | none =>
      obtain ⟨value, hrun⟩ := h.stop carried (budget + 1) compiler hfound
      rw [hrun]
      exact settles_loop_end hloop hheads hahead hfound value
    | some found =>
      rw [h.go carried budget compiler found hfound]
      rw [hahead.current_eq] at hfound
      obtain ⟨token, htoken, hhead⟩ := Option.bind_eq_some_iff.1 hfound
      obtain ⟨rest, rfl⟩ := List.head?_eq_some_iff.1 htoken
      have hrounds : Settles (round * language) follow (token :: rest)
          ((step found >>= fun value => loop (next carried value) budget) compiler) := by
        refine (hstep token found hhead compiler rest hbound hahead).bind ?_
          ⟨[], nil_mem_loop hloop⟩ hbehind
        intro value reached moved behind htokens hmoved hahead'
        -- the round was not empty, so the budget that is left covers the tokens that are left
        obtain ⟨first, others, rfl, -⟩ := hheads moved hmoved
        have hless : behind.length + 1 ≤ (token :: rest).length := by
          rw [htokens, List.length_append, List.length_cons]
          omega
        exact ih (next carried value) (by omega) (by omega) hahead'
      refine hrounds.of_heads ?_ ?_
      · intro text htext
        rw [hloop]
        exact .inr htext
      · intro text htext behind hfollows hlooks
        rcases begins_with_round hloop hheads htext with rfl | ⟨htext, -⟩
        · -- a loop without a round would have a token behind it that begins one
          have hnone := hfollow behind hfollows token hlooks
          rw [hnone] at hhead
          cases hhead
        · exact htext

/-- **Loops.** A loop recognises a language that is one round and then the language again, if what
may stand behind it does not begin like a round. -/
theorem Loops.recognises {γ σ : Type} {step : α → CompileM γ} {next : σ → γ → σ}
    {loop : σ → Nat → CompileM β} (h : Loops head step next loop)
    (hstep : ∀ token found, head token = some found →
      RecognisesFrom token bound round followed (step found))
    (hfollow : ∀ behind, follow behind → ∀ token ∈ behind.head?, head token = none)
    (hbehind : ∀ text ∈ language, ∀ behind, follow behind → followed (text ++ behind))
    {budget : Nat} (hbudget : bound ≤ budget) (carried : σ) :
    Recognises bound language follow (loop carried budget) :=
  ⟨⟨[], nil_mem_loop hloop⟩, fun _ _ hlength hahead =>
    h.settles hloop hheads hstep hfollow hbehind carried hlength (hlength.trans hbudget) hahead⟩

end

/-- One or more items with commas between them. -/
theorem recognises_commaList [Nonempty α] {item : CompileM α}
    (hloop : language = 1 + {[.symbol ',']} * round * language)
    (hitem : Recognises bound round followed item)
    (hfollow : ∀ behind, follow behind → behind.head? ≠ some (.symbol ','))
    (hbehind : ∀ text ∈ language, ∀ behind, follow behind → followed (text ++ behind))
    {budget : Nat} (hbudget : bound ≤ budget) :
    Recognises bound (round * language) follow (commaList item budget) := by
  refine hitem.bind (fun value => ?_) hbehind
  refine (commaListFrom_loops item).recognises hloop ?_ ?_ ?_ hbehind hbudget [value]
  · intro text htext
    obtain ⟨_, rfl, rest, -, rfl⟩ := Language.mem_mul.1 htext
    exact ⟨_, rest, rfl, rfl⟩
  · intro token _ hcomma
    obtain rfl : token = .symbol ',' := by simpa [comma?] using hcomma
    cases bound with
    | zero => exact fun _ _ hlength => absurd hlength (Nat.not_succ_le_zero _)
    | succ bound => exact recognisesFrom_advance (hitem.mono (Nat.le_succ _))
  · intro behind hfollows token htoken
    rw [comma?_eq_none_iff]
    rintro rfl
    exact hfollow behind hfollows htoken

/-! ## Actions that do not read -/

/-- An action that leaves the tokens ahead as they are and does not complain about them. -/
def Silent (action : CompileM α) : Prop := ∀ compiler,
  (after (action compiler)).lexer = compiler.lexer ∧
  (after (action compiler)).current = compiler.current ∧
  ∀ line wanted found, raised (action compiler) ≠ some (.expected line wanted found)

/-- The tokens ahead are those of the lexer and the current token, and nothing else counts. -/
theorem Ahead.of_still {compiler reached : Compiler} (hahead : compiler.Ahead tokens)
    (hlexer : reached.lexer = compiler.lexer) (hcurrent : reached.current = compiler.current) :
    reached.Ahead tokens := by
  cases tokens with
  | nil => exact hcurrent.trans hahead
  | cons token rest => exact ⟨hcurrent.trans hahead.1, hlexer ▸ hahead.2⟩

section

variable {action : CompileM α} {next : α → CompileM β}

/-- Silent actions in a row are silent. -/
theorem Silent.bind (h : Silent action) (hnext : ∀ value, Silent (next value)) :
    Silent (action >>= next) := by
  intro compiler
  obtain ⟨hlexer, hcurrent, hraised⟩ := h compiler
  cases hrun : action compiler with
  | ok value reached =>
    rw [bind_ok hrun]
    rw [hrun] at hlexer hcurrent
    obtain ⟨hlexer', hcurrent', hraised'⟩ := hnext value reached
    exact ⟨hlexer'.trans hlexer, hcurrent'.trans hcurrent, hraised'⟩
  | error error reached =>
    rw [bind_error hrun]
    rw [hrun] at hlexer hcurrent hraised
    exact ⟨hlexer, hcurrent, hraised⟩

/-- A silent action recognises the empty sentence, since it neither moves nor complains about the
token ahead. -/
theorem Silent.recognises (h : Silent action) : Recognises bound 1 follow action where
  inhabited := ⟨[], Language.nil_mem_one⟩
  settles := by
    intro compiler tokens _ hahead
    obtain ⟨hlexer, hcurrent, hraised⟩ := h compiler
    cases hrun : action compiler with
    | ok value reached =>
      rw [hrun] at hlexer hcurrent
      exact settles_nothing (hahead.of_still hlexer hcurrent) value
    | error error reached =>
      rw [hrun] at hraised
      refine ⟨fun _ _ hok => (nomatch hok), ?_⟩
      rintro line wanted found _ ⟨⟩
      exact absurd rfl (hraised line wanted found)

/-- What is settled behind an action that does not read is settled in front of it. -/
theorem Silent.settles_bind (h : Silent action) {compiler : Compiler}
    (hahead : compiler.Ahead tokens) (hlanguage : ∃ text, text ∈ language)
    (hnext : ∀ value (reached : Compiler), reached.Ahead tokens →
      Settles language follow tokens (next value reached)) :
    Settles language follow tokens ((action >>= next) compiler) := by
  have hsilent : Recognises tokens.length 1 (fun _ => True) action := h.recognises
  have hfirst := hsilent.settles compiler tokens (Nat.le_refl _) hahead
  have hboth : Settles (1 * language) follow tokens ((action >>= next) compiler) := by
    refine hfirst.bind ?_ hlanguage fun _ _ _ _ => trivial
    rintro value reached _ rest rfl rfl hahead'
    exact hnext value reached hahead'
  rwa [one_mul] at hboth

/-- A silent action in front of another one changes nothing about what is recognised. -/
theorem Silent.recognises_bind [Nonempty α] (h : Silent action)
    (hnext : ∀ value, Recognises bound language follow (next value)) :
    Recognises bound language follow (action >>= next) where
  inhabited := (hnext (Classical.arbitrary α)).inhabited
  settles := fun _ tokens hlength hahead =>
    h.settles_bind hahead (hnext (Classical.arbitrary α)).inhabited fun value reached =>
      (hnext value).settles reached tokens hlength

theorem Silent.recognisesFrom_advance [Nonempty α] {token : Token} {rule : α → CompileM β}
    (h : Silent action) (hrule : ∀ value, Recognises bound language follow (rule value)) :
    RecognisesFrom token (bound + 1) ({[token]} * language) follow
      (action >>= fun value => advance >>= fun _ => rule value) := by
  obtain ⟨text, htext⟩ := (hrule (Classical.arbitrary α)).inhabited
  have hlanguage : ∃ text, text ∈ {[token]} * language :=
    ⟨[token] ++ text, Language.append_mem_mul rfl htext⟩
  intro compiler rest hlength hahead
  refine h.settles_bind hahead hlanguage fun value reached hahead' => ?_
  exact Compiler.recognisesFrom_advance (hrule value) reached rest hlength hahead'

/-- A silent action behind another one changes nothing about what is recognised. -/
theorem Recognises.bind_silent [Nonempty α] (h : Recognises bound language follow action)
    (hnext : ∀ value, Silent (next value)) :
    Recognises bound language follow (action >>= next) := by
  have hsilent : ∀ value, Recognises bound 1 follow (next value) :=
    fun value => (hnext value).recognises
  have hboth : Recognises bound (language * 1) follow (action >>= next) := by
    refine h.bind hsilent ?_
    rintro _ rfl behind hbehind
    exact hbehind
  rwa [mul_one] at hboth

end

theorem silent_pure (value : α) : Silent (pure value : CompileM α) :=
  fun _ => ⟨rfl, rfl, fun _ _ _ hraised => nomatch hraised⟩

theorem silent_look : Silent Actions.look :=
  fun _ => ⟨rfl, rfl, fun _ _ _ hraised => nomatch hraised⟩

/-- Changes of what is known and of where numbers and commands go. -/
theorem silent_modify {change : Compiler → Compiler}
    (hlexer : ∀ compiler, (change compiler).lexer = compiler.lexer)
    (hcurrent : ∀ compiler, (change compiler).current = compiler.current) :
    Silent (modify change) :=
  fun compiler => ⟨hlexer compiler, hcurrent compiler, fun _ _ _ hraised => nomatch hraised⟩

theorem silent_freshLabel : Silent freshLabel :=
  fun _ => ⟨rfl, rfl, fun _ _ _ hraised => nomatch hraised⟩

theorem silent_note (event : LogEvent) : Silent (note event) :=
  fun _ => ⟨rfl, rfl, fun _ _ _ hraised => nomatch hraised⟩

/-- A command that cannot be written fails, but not with a complaint about a token. -/
theorem silent_emit (command : Command) : Silent (emit command) := by
  intro compiler
  obtain ⟨writer, deferred, hafter, -, -, hraised⟩ := after_emit compiler command
  rw [hafter]
  refine ⟨rfl, rfl, fun line wanted found hexpected => ?_⟩
  rw [hexpected] at hraised
  simp at hraised

theorem silent_emitAll (commands : List Command) : Silent (emitAll commands) := by
  induction commands with
  | nil => exact silent_pure ()
  | cons command rest ih => exact (silent_emit command).bind fun _ => ih

/-- A name that is refused is no complaint about the token ahead. -/
theorem silent_define (name type : String) (kind : VarKind) : Silent (define name type kind) := by
  intro compiler
  unfold define
  split
  · exact ⟨rfl, rfl, fun _ _ _ hraised => nomatch hraised⟩
  · exact ⟨rfl, rfl, fun _ _ _ hraised => nomatch hraised⟩

theorem silent_defineAll (type : String) (kind : VarKind) (names : List String) :
    Silent (defineAll type kind names) := by
  induction names with
  | nil => exact silent_pure ()
  | cons name rest ih => exact (silent_define name type kind).bind fun _ => ih

theorem silent_defineParameters (found : List (String × String)) :
    Silent (defineParameters found) := by
  induction found with
  | nil => exact silent_pure ()
  | cons parameter rest ih => exact (silent_define _ _ _).bind fun _ => ih

/-- A name without a meaning is no complaint about the token ahead. -/
theorem silent_lookup (name : String) : Silent (lookup name) := by
  intro compiler
  rw [lookup, get_bind]
  cases compiler.symbols.resolve? name with
  | none => exact ⟨rfl, rfl, fun _ _ _ hraised => nomatch hraised⟩
  | some symbol => exact ⟨rfl, rfl, fun _ _ _ hraised => nomatch hraised⟩

/-- Where the commands of an action go makes no difference to what it recognises. -/
theorem Recognises.defer {action : CompileM Unit} (h : Recognises bound language follow action) :
    Recognises bound language follow (defer action) where
  inhabited := h.inhabited
  settles := by
    intro compiler tokens hlength hahead
    have hopened : compiler.opened.Ahead tokens := hahead.of_still rfl rfl
    have hsettles := h.settles compiler.opened tokens hlength hopened
    cases hrun : action compiler.opened with
    | ok value reached =>
      rw [defer_of_ok hrun]
      refine ⟨?_, fun _ _ _ _ herror => nomatch herror⟩
      rintro _ _ ⟨⟩
      obtain ⟨moved, rest, htokens, hahead', hmatched⟩ := hsettles.ok _ _ hrun
      exact ⟨moved, rest, htokens, hahead'.of_still rfl rfl, hmatched⟩
    | error error reached =>
      rw [defer_of_error hrun]
      refine ⟨fun _ _ hok => (nomatch hok), ?_⟩
      rintro line wanted found _ ⟨⟩
      obtain ⟨hblames, moved, rest, htokens, hahead', hrefused⟩ := hsettles.expected _ _ _ _ hrun
      exact ⟨⟨hblames.line_eq, hblames.found_eq⟩, moved, rest, htokens, hahead'.of_still rfl rfl,
        hrefused⟩

end Jack.Compiler
