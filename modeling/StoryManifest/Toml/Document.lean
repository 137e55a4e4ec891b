/-!
Settings as a tree of tables. A table may come about in three ways: by its own header, by a header of a
table inside it, or by a dotted key. It says how a table came about whether it may be added to.
-/

namespace StoryManifest.Toml

/-- How a table came about. -/
inductive Origin where
  | header
  | implied
  | dotted
  deriving DecidableEq, Repr

/-- What a key stands for. Of numbers, dates and other values that settings do not use only the place
is kept. -/
inductive Item where
  | text (value : String)
  | list (items : List Item)
  | other
  | table (origin : Origin) (fields : List (String × Item))
  /-- A row of tables; the last one comes first. -/
  | tables (rows : List (List (String × Item)))
  deriving Repr, Inhabited

/-- The fields of a table. -/
abbrev Table := List (String × Item)

namespace Table

/-- The item of a key. -/
def find? (key : String) (t : Table) : Option Item := t.lookup key

/-- Puts an item in the place of the one of its key, or at the end. -/
def put (key : String) (item : Item) : Table → Table
  | [] => [(key, item)]
  | (k, i) :: rest => if k = key then (k, item) :: rest else (k, i) :: put key item rest

/-- Changes the table at a path of keys. Missing tables on the way come about as the path says; values
cannot be entered, and dotted keys cannot enter tables that have a header. -/
def update (dotted : Bool) : List String → (Table → Option Table) → Table → Option Table
  | [], change, t => change t
  | key :: path, change, t =>
    match t.find? key with
    | none =>
      (update dotted path change []).map fun fields =>
        t.put key (.table (if dotted then .dotted else .implied) fields)
    | some (.table origin fields) =>
      if dotted ∧ origin = .header then none
      else (update dotted path change fields).map fun fields => t.put key (.table origin fields)
    | some (.tables (row :: rows)) =>
      (update dotted path change row).map fun row => t.put key (.tables (row :: rows))
    | some _ => none

/-- The way a table at a path of dotted keys came about, if it is there. -/
def originAt? : List String → Table → Option Origin
  | [], _ => none
  | [key], t =>
    match t.find? key with
    | some (.table origin _) => some origin
    | some (.tables _) => some .header
    | _ => none
  | key :: path, t =>
    match t.find? key with
    | some (.table _ fields) => originAt? path fields
    | some (.tables (row :: _)) => originAt? path row
    | _ => none

/-- Adds a value under a dotted key. The table that it goes into must have come about by such a key. -/
def define (path : List String) (key : String) (item : Item) (t : Table) : Option Table :=
  match originAt? path t with
  | some .header => none
  | some .implied => none
  | _ => update true path (fun t => if (t.find? key).isSome then none else some (t.put key item)) t

/-- Opens the table of a header. A table that a header inside it implied gets its own header so. -/
def openTable (key : String) (t : Table) : Option Table :=
  match t.find? key with
  | none => some (t.put key (.table .header []))
  | some (.table .implied fields) => some (t.put key (.table .header fields))
  | some _ => none

/-- Opens a further table of a row. -/
def openRow (key : String) (t : Table) : Option Table :=
  match t.find? key with
  | none => some (t.put key (.tables [[]]))
  | some (.tables rows) => some (t.put key (.tables ([] :: rows)))
  | some _ => none

end Table

end StoryManifest.Toml
