/-! What the words of a command line ask for: one of four commands, each with the documents that it
names and one option. -/

namespace BlockScript

inductive Command where
  /-- Prints what the analysis of a program finds. -/
  | check (program : String) (devices : Option String)
  /-- Writes a program in the form in which it is exported. -/
  | format (program : String) (output : Option String)
  /-- Prints the listing of a program. -/
  | render (program : String) (devices : Option String)
  /-- Adds the procedures of a document to a program. -/
  | merge (program procedures : String) (output : Option String)
deriving DecidableEq

inductive Request where
  | run (command : Command)
  | version
  | help
  /-- The words make no command. -/
  | misuse
deriving DecidableEq

/-- The commands without their documents and options. -/
inductive Verb where
  | check
  | format
  | render
  | merge
deriving DecidableEq

namespace Verb

def ofWord? (word : String) : Option Verb :=
  [("check", check), ("fmt", format), ("render", render), ("merge", merge)].lookup word

/-- How many documents the command names. -/
def documents : Verb → Nat
  | merge => 2
  | _ => 1

/-- The forms of the option that the command has. -/
def options : Verb → List String
  | check | render => ["--devices"]
  | format | merge => ["--output", "-o"]

/-- The command with these documents and this value of the option. -/
def command? (v : Verb) (documents : List String) (option : Option String) : Option Command :=
  match v, documents with
  | check, [program] => some (.check program option)
  | format, [program] => some (.format program option)
  | render, [program] => some (.render program option)
  | merge, [program, procedures] => some (.merge program procedures option)
  | _, _ => none

end Verb

namespace Request

/-- Whether the letter is the first option of a word of short ones. Several may be written together
after one dash; those that end the command line do so at once, whatever follows them. -/
def beginsWith (letter : Char) (word : String) : Bool := ['-', letter].isPrefixOf word.toList

def isHelp (word : String) : Bool := word == "--help" || beginsWith 'h' word

def isVersion (word : String) : Bool := word == "--version" || beginsWith 'V' word

/-- Whether a word stands for itself. A word that begins with a dash does not, unless it is all
there is. -/
def isPlain (word : String) : Bool := word == "-" || word.toList.head? != some '-'

/-- The rest of a word that begins with `start`. -/
def after? (start word : String) : Option String :=
  (start.toList.isPrefixOf? word.toList).map String.ofList

/-- The value that is written in one word with a form of an option: after an equals sign, which the
short form may leave out. -/
def attached? (form word : String) : Option String :=
  match after? (form ++ "=") word with
  | some value => some value
  | none => if form.length = 2 then (after? form word).filter (!·.isEmpty) else none

/-- The request of a command and the words after it. Documents and the option come in any order, and
the option once; after two dashes all words are documents. -/
def ofWords (v : Verb) (documents : List String) (option : Option String) (escaped : Bool) :
    List String → Request
  | [] =>
    match v.command? documents option with
    | some command => .run command
    | none => .misuse
  | word :: rest =>
    if escaped || isPlain word then
      if word.isEmpty || documents.length == v.documents then .misuse
      else ofWords v (documents ++ [word]) option escaped rest
    else if word = "--" then ofWords v documents option true rest
    else if isHelp word then .help
    else if v.options.contains word then
      match rest with
      | value :: rest =>
        if option.isSome || value.isEmpty || !isPlain value then .misuse
        else ofWords v documents (some value) escaped rest
      | [] => .misuse
    else
      match v.options.findSome? (attached? · word) with
      | some value =>
        if option.isSome || value.isEmpty then .misuse
        else ofWords v documents (some value) escaped rest
      | none => .misuse

/-- The request of a whole command line. -/
def ofArguments : List String → Request
  | [] => .misuse
  | word :: rest =>
    if isVersion word then .version
    else if isHelp word then .help
    else if word = "help" then
      match rest with
      | [] => .help
      | [verb] => if (Verb.ofWord? verb).isSome || verb == "help" then .help else .misuse
      | _ => .misuse
    else
      match Verb.ofWord? word with
      | some v => ofWords v [] none false rest
      | none => .misuse

end Request

end BlockScript
