import BlockScript.Document.Export

/-! The content of a tree: what is left of it without tags and flags. Stamping keeps the content,
and neither documents nor equality depend on anything else. -/

namespace BlockScript

variable {ι κ : Type}

namespace Operand

def plain (o : Operand ι) : Operand Unit := o.retag ()

@[simp] theorem plain_plain (o : Operand ι) : o.plain.plain = o.plain := rfl

@[simp] theorem toJson_plain (o : Operand ι) : o.plain.toJson = o.toJson := rfl

@[simp] theorem sameAs_plain (o : Operand ι) (o' : Operand κ) :
    o.plain.sameAs o'.plain = o.sameAs o' := rfl

end Operand

namespace Expression

mutual

def plain : Expression ι → Expression Unit
  | leaf _ operator first second => leaf () operator first.plain (second.map Operand.plain)
  | group _ operator children => group () operator (plainEach children)
  | operand o => operand o.plain

def plainEach : List (Expression ι) → List (Expression Unit)
  | [] => []
  | e :: rest => e.plain :: plainEach rest

end

mutual

@[simp] theorem plain_plain : (e : Expression ι) → e.plain.plain = e.plain
  | leaf _ _ _ second => by cases second <;> rfl
  | group _ _ children => by simp [plain, plainEach_plainEach children]
  | operand _ => rfl

@[simp] theorem plainEach_plainEach :
    (list : List (Expression ι)) → plainEach (plainEach list) = plainEach list
  | [] => rfl
  | e :: rest => by simp [plainEach, plain_plain e, plainEach_plainEach rest]

end

mutual

@[simp] theorem plain_stamp : (next : Nat) → (e : Expression ι) → (e.stamp next).plain = e.plain
  | _, leaf _ _ _ second => by cases second <;> rfl
  | next, group _ _ children => by simp [stamp, plain, plainEach_stampEach (next + 1) children]
  | _, operand _ => rfl

@[simp] theorem plainEach_stampEach :
    (next : Nat) → (list : List (Expression ι)) → plainEach (stampEach next list) = plainEach list
  | _, [] => rfl
  | next, e :: rest => by
    simp [stampEach, plainEach, plain_stamp next e, plainEach_stampEach (next + e.count) rest]

end

mutual

@[simp] theorem toJson_plain : (e : Expression ι) → e.plain.toJson = e.toJson
  | leaf _ _ _ second => by cases second <;> rfl
  | group _ _ children => by simp [plain, toJson, toItems_plainEach children]
  | operand _ => rfl

@[simp] theorem toItems_plainEach :
    (list : List (Expression ι)) → toItems (plainEach list) = toItems list
  | [] => rfl
  | e :: rest => by simp [plainEach, toItems, toJson_plain e, toItems_plainEach rest]

end

mutual

@[simp] theorem sameAs_plain :
    (e : Expression ι) → (f : Expression κ) → e.plain.sameAs f.plain = e.sameAs f
  | leaf _ _ _ second, leaf _ _ _ second' => by cases second <;> cases second' <;> rfl
  | group _ _ children, group _ _ children' => by
    simp [plain, sameAs, sameEach_plainEach children children']
  | operand _, operand _ => rfl
  | leaf .., group .. | leaf .., operand _ | group .., leaf .. | group .., operand _
  | operand _, leaf .. | operand _, group .. => rfl

@[simp] theorem sameEach_plainEach :
    (as : List (Expression ι)) → (bs : List (Expression κ)) →
      sameEach (plainEach as) (plainEach bs) = sameEach as bs
  | [], [] | [], _ :: _ | _ :: _, [] => rfl
  | a :: as, b :: bs => by
    simp [plainEach, sameEach, sameAs_plain a b, sameEach_plainEach as bs]

end

end Expression

namespace Argument

def plain : Argument ι → Argument Unit
  | literal type value => literal type value
  | expressions type list => expressions type (Expression.plainEach list)

@[simp] theorem plain_plain (a : Argument ι) : a.plain.plain = a.plain := by
  cases a <;> simp [plain]

@[simp] theorem plain_stamp (next : Nat) (a : Argument ι) : (a.stamp next).plain = a.plain := by
  cases a <;> simp [plain, stamp]

@[simp] theorem toJson_plain (a : Argument ι) : a.plain.toJson = a.toJson := by
  cases a <;> simp [plain, toJson, type]

@[simp] theorem sameAs_plain (a : Argument ι) (b : Argument κ) :
    a.plain.sameAs b.plain = a.sameAs b := by
  cases a <;> cases b <;> simp [plain, sameAs]

@[simp] theorem map_plain_stampEach :
    (next : Nat) → (list : List (Argument ι)) → (stampEach next list).map plain = list.map plain
  | _, [] => rfl
  | next, a :: rest => by simp [stampEach, map_plain_stampEach (next + a.count) rest]

@[simp] theorem sameEach_map_plain :
    (as : List (Argument ι)) → (bs : List (Argument κ)) →
      sameEach (as.map plain) (bs.map plain) = sameEach as bs
  | [], [] | [], _ :: _ | _ :: _, [] => rfl
  | a :: as, b :: bs => by simp [sameEach, sameEach_map_plain as bs]

end Argument

namespace Head

def plain (h : Head ι) : Head Unit where
  id := h.id
  tag := ()
  arguments := h.arguments.map (·.map Argument.plain)

@[simp] theorem plain_plain (h : Head ι) : h.plain.plain = h.plain := by
  simp [plain, Function.comp_def]

@[simp] theorem plain_stamp (next : Nat) (h : Head ι) : (h.stamp next).plain = h.plain := by
  simp [plain, stamp, Function.comp_def]

@[simp] theorem toFields_plain (h : Head ι) : h.plain.toFields = h.toFields := by
  cases hargs : h.arguments <;> simp [plain, toFields, hargs, Function.comp_def]

@[simp] theorem sameAs_plain (a : Head ι) (b : Head κ) : a.plain.sameAs b.plain = a.sameAs b := by
  cases ha : a.arguments <;> cases hb : b.arguments <;> simp [plain, sameAs, ha, hb]

end Head

namespace Statement

mutual

def plain : Statement ι → Template
  | simple head => simple head.plain
  | compound head block => compound head.plain (plainEach block)

def plainEach : List (Statement ι) → List Template
  | [] => []
  | s :: rest => s.plain :: plainEach rest

end

mutual

@[simp] theorem plain_plain : (s : Statement ι) → s.plain.plain = s.plain
  | simple _ => by simp [plain]
  | compound _ block => by simp [plain, plainEach_plainEach block]

@[simp] theorem plainEach_plainEach :
    (block : Block ι) → plainEach (plainEach block) = plainEach block
  | [] => rfl
  | s :: rest => by simp [plainEach, plain_plain s, plainEach_plainEach rest]

end

mutual

@[simp] theorem plain_stamp : (next : Nat) → (s : Statement ι) → (s.stamp next).plain = s.plain
  | _, simple _ => by simp [plain, stamp]
  | next, compound head block => by
    simp [plain, stamp, plainEach_stampEach (next + head.count) block]

@[simp] theorem plainEach_stampEach :
    (next : Nat) → (block : Block ι) → plainEach (stampEach next block) = plainEach block
  | _, [] => rfl
  | next, s :: rest => by
    simp [stampEach, plainEach, plain_stamp next s, plainEach_stampEach (next + s.count) rest]

end

mutual

@[simp] theorem toJson_plain : (s : Statement ι) → s.plain.toJson = s.toJson
  | simple _ => by simp [plain, toJson]
  | compound _ block => by simp [plain, toJson, toItems_plainEach block]

@[simp] theorem toItems_plainEach : (block : Block ι) → toItems (plainEach block) = toItems block
  | [] => rfl
  | s :: rest => by simp [plainEach, toItems, toJson_plain s, toItems_plainEach rest]

end

mutual

@[simp] theorem sameAs_plain :
    (s : Statement ι) → (t : Statement κ) → s.plain.sameAs t.plain = s.sameAs t
  | simple _, simple _ => by simp [plain, sameAs]
  | compound _ as, compound _ bs => by simp [plain, sameAs, sameEach_plainEach as bs]
  | simple _, compound .. | compound .., simple _ => rfl

@[simp] theorem sameEach_plainEach :
    (as : Block ι) → (bs : Block κ) → sameEach (plainEach as) (plainEach bs) = sameEach as bs
  | [], [] | [], _ :: _ | _ :: _, [] => rfl
  | a :: as, b :: bs => by
    simp [plainEach, sameEach, sameAs_plain a b, sameEach_plainEach as bs]

end

theorem map_plain_stampBodies :
    (next : Nat) → (bodies : List (String × Block ι)) →
      (stampBodies next bodies).map (fun (id, body) => (id, plainEach body)) =
        bodies.map fun (id, body) => (id, plainEach body)
  | _, [] => rfl
  | next, (_, body) :: rest => by
    simp [stampBodies, map_plain_stampBodies (next + countEach body) rest]

end Statement

namespace Draft

/-- The draft with all flags taken down. -/
def plain (d : Draft) : Draft where
  «variables» := d.variables
  procedures := d.procedures.mapValues fun _ => Statement.plainEach
  block := Statement.plainEach d.block

/-- The document with the content of the draft. -/
def toJson (d : Draft) : Json :=
  .object
    [("header", .object
      [("userVariables", .object (d.variables.entries.map fun entry => (entry.1, entry.2.toJson))),
        ("userProcedures",
          .object (d.procedures.entries.map fun entry => (entry.1, entry.2.toJson)))]),
      ("block", d.block.toJson)]

end Draft

namespace Program

/-- What a document tells of a program. -/
def content (p : Program) : Draft where
  «variables» := p.variables
  procedures := p.procedures.mapValues fun _ => Statement.plainEach
  block := Statement.plainEach p.block

theorem content_ofDraft (d : Draft) (next : Nat) : (ofDraft d next).content = d.plain := by
  simp only [content, ofDraft, Draft.plain, Statement.plainEach_stampEach, Draft.mk.injEq, true_and,
    and_true]
  exact Table.ext (Statement.map_plain_stampBodies _ _)

@[simp] theorem plain_content (p : Program) : p.content.plain = p.content := by
  simp [content, Draft.plain, Table.mapValues, Function.comp_def]

theorem toJson_content (p : Program) : p.content.toJson = p.toJson := by
  simp [toJson, Draft.toJson, content, Table.mapValues, Block.toJson, Function.comp_def]

/-- Programs with the same content have the same document. -/
theorem toJson_congr {p q : Program} (h : p.content = q.content) : p.toJson = q.toJson := by
  rw [← toJson_content p, h, toJson_content]

end Program

end BlockScript
