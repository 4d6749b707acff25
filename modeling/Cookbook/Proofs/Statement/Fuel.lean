import Cookbook.Proofs.Statement.Calls

/-!
The bound on the depth of calls is enough. A call that has six units of fuel for each token from its
own on, and a few more, ends in one way, so it gives the same result with any further fuel.

* `ParserCall.run_of_le` says this for each call;
* `TokenSource.exists_endsIn_parsed` is what other modules use: the reading of a whole file is a call that
  ends.
-/

namespace Cookbook

/-- The result of a call does not depend on the fuel once there is enough. -/
theorem ParserCall.run_of_le {src : TokenSource} {call : ParserCall} {f g : Nat} (hp : call.Placed src)
    (hf : call.need src ≤ f) (hfg : f ≤ g) : call.run src g = call.run src f := by
  have hpos : 0 < call.need src := Nat.add_pos_right _ call.rank_pos
  obtain ⟨f, rfl⟩ : ∃ n, f = n + 1 := ⟨f - 1, by omega⟩
  obtain ⟨g, rfl⟩ : ∃ n, g = n + 1 := ⟨g - 1, by omega⟩
  exact ((ends hp hf).eq_run hp (hf.trans hfg)).1.symm

theorem parseStatements_of_le {src : TokenSource} {stop : Token → Bool} {c : Cursor} {f g : Nat}
    (hc : src.Holds c) (hf : 6 * src.left c.index + 4 ≤ f) (hfg : f ≤ g) :
    parseStatements src g stop c = parseStatements src f stop c := by
  have hp : (ParserCall.statements stop c).Placed src := hc
  exact ParserCall.run_of_le hp hf hfg

theorem parseCommand_of_le {src : TokenSource} {first : Token} {start : Nat} {d : CommandDraft}
    {c : Cursor} {f g : Nat} (hc : (ParserCall.command first start d c).Placed src)
    (hf : 6 * src.left c.index + 2 ≤ f) (hfg : f ≤ g) :
    parseCommand src g first start d c = parseCommand src f first start d c :=
  ParserCall.run_of_le hc hf hfg

/-- The fuel given to a file is enough. -/
theorem TokenSource.fuel_enough (src : TokenSource) :
    6 * src.left (src.cursor 0).index + 4 ≤ src.fuel := by
  show 6 * (src.size + 1 - 0) + 4 ≤ 6 * (src.size + 2)
  omega

/-! ### Whole files -/

/-- The tokens and lines that the parser is given for a text. -/
def TokenSource.ofText (text : Text) : TokenSource := ⟨(lex text 0).tokens, .ofText text⟩

/-- What the parser reads of a whole file. -/
def TokenSource.parsed (src : TokenSource) : Parsed (List Statement) :=
  parseStatements src src.fuel (fun _ => false) (src.cursor 0)

theorem TokenSource.parsed_of_le {src : TokenSource} {fuel : Nat} (h : src.fuel ≤ fuel) :
    parseStatements src fuel (fun _ => false) (src.cursor 0) = src.parsed :=
  parseStatements_of_le (src.holds_cursor 0) src.fuel_enough h

/-- The statements of a file are what a call gives that ends. -/
theorem TokenSource.exists_endsIn_parsed (src : TokenSource) :
    ∃ log, (ParserCall.statements (fun _ => false) (src.cursor 0)).EndsIn src src.parsed log :=
  ⟨_, ParserCall.ends (src.holds_cursor 0) src.fuel_enough⟩

theorem Program.statements_ofText (text : Text) :
    (Program.ofText text).statements = (TokenSource.ofText text).parsed.value := rfl

end Cookbook
