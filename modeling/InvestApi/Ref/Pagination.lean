import Mathlib.Data.Prod.Lex
import InvestApi.Codec.Json
import InvestApi.Pg.Keyset
import InvestApi.Ref.Ledger

/-!
# Pagination

`src/shared/pagination.ts`: a cursor is the base64url of a JSON object that
names the sort key and the id of the last row of a page. What a client sends
back may be any text; `decodeCursor` throws on all but an object with two
string properties, and what these say is then Postgres' to read.
-/

namespace InvestApi.Ref

open InvestApi.Pg InvestApi.Codec

structure CursorPayload where
  c : String
  id : String
  deriving DecidableEq, Repr

structure Page (T : Type) where
  items : List T
  next_cursor : Option String
  deriving DecidableEq, Repr

def encodeCursor (sortKey id : String) : String :=
  String.ofList (encode ((objectText [("c", sortKey), ("id", id)]).flatMap utf8Encode))

def badCursor : ApiError :=
  .problem 400 "bad-cursor"
    "cursor not recognised — it is opaque and belongs to the server"

/-- A property that is a string, as it goes to Postgres; of two with one name the later
one counts. -/
def stringProp (name : String) (props : List (JsString × Json)) : Option String :=
  match props.reverse.lookup (.ofString name) with
  | some (.string s) => some s.utf8
  | _ => none

theorem stringProp_named {name s : String} {props : List (String × Json)}
    (h : props.reverse.lookup name = some (.string (.ofString s))) :
    stringProp name (named props) = some s := by
  rw [stringProp, lookup_named, h]
  exact congrArg some (JsString.utf8_ofString s)

def decodeCursor (raw : String) : Except ApiError CursorPayload :=
  match parse (utf8Decode none (decode raw.toList)) with
  | some (.object props) =>
      match stringProp "c" props, stringProp "id" props with
      | some c, some id => .ok ⟨c, id⟩
      | _, _ => .error badCursor
  | _ => .error badCursor

/-- The server reads back every cursor it issues. -/
theorem decodeCursor_encodeCursor (sortKey id : String) :
    decodeCursor (encodeCursor sortKey id) = .ok ⟨sortKey, id⟩ := by
  have hbytes : ∀ b ∈ (objectText [("c", sortKey), ("id", id)]).flatMap utf8Encode,
      b < 256 := by
    intro b hb
    obtain ⟨c, _, hc⟩ := List.mem_flatMap.mp hb
    exact utf8Encode_lt c b hc
  rw [decodeCursor, encodeCursor, String.toList_ofList, decode_encode hbytes,
    utf8Decode_encode, parse_objectText]
  dsimp only
  rw [@stringProp_named "c" sortKey _ rfl, @stringProp_named "id" id _ rfl]

/-! ## The row-value comparison -/

/-- What both lists are ordered by: an instant, and the id where two agree. -/
abbrev SortKey := Timestamptz ×ₗ Uuid

/-- A text parameter of type timestamptz. -/
def timestamptzParam (env : Env) (s : String) : LedgerProg Timestamptz :=
  match env.pgTimestamptzIn s with
  | none => .raise (.db "22007")
  | some t => .ret t

/-- The parameters `:c` and `:cid` of `(sort_key, id) < (:c, :cid)`. -/
def cursorParams (env : Env) : Option CursorPayload → LedgerProg (Option SortKey)
  | none => .ret none
  | some cursor => do
      let c ← timestamptzParam env cursor.c
      let cid ← uuidParam cursor.id
      return some (toLex (c, cid))

/-- An optional query parameter as `if (x)` sees it. -/
def truthy (s : Option String) : Option String := s.filter fun s => !s.isEmpty

/-- `cursor ? decodeCursor(cursor) : undefined` -/
def cursorArgument (cursor : Option String) : Except ApiError (Option CursorPayload) :=
  match truthy cursor with
  | none => .ok none
  | some raw => (decodeCursor raw).map some

end InvestApi.Ref
