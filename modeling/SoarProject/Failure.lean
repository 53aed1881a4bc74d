import SoarProject.Number.Literal
import SoarProject.Rule.ParseError
import SoarProject.Schema.Table

/-!
# Failures

Why an operation on a project failed. `StorageError` is what the store itself reports; operations
that only show a record recover from it. Every other failure is a request that makes no sense for
the tables and rows it names.

The wording of each failure is in `StorageError.message?` and `Failure.message?`; some have none.
-/

namespace SoarProject

/-- What a store reports. -/
inductive StorageError where
  /-- The table does not exist. -/
  | noSuchTable (table : String)
  /-- A statement names a column that does not exist. -/
  | noSuchColumn (column : String)
  /-- An insertion names a column that the table does not have. -/
  | noColumnNamed (table column : String)
  /-- A record with these values exists already. -/
  | notUnique (columns : List String)
  /-- The column needs a value. -/
  | missingValue (column : String)
  /-- The id of a record must be an integer. -/
  | typeMismatch
  /-- The numbers of columns and values differ. -/
  | widthMismatch (values columns : Nat)
  /-- A statement would change a table of the store itself. -/
  | protectedTable (table change : String)
  /-- A statement is not well formed near this piece of it. -/
  | malformed (near : String)
  /-- A statement holds a text without its closing quote. -/
  | unrecognized (token : String)
  /-- A statement ends too early. -/
  | incomplete
  /-- The file cannot be opened. -/
  | cannotOpen
  /-- The store is only read. -/
  | readOnly
  /-- A location names a host that is not this machine. -/
  | unknownHost (host : String)
  /-- A location asks for an unknown mode of access or of sharing. -/
  | unknownMode (what mode : String)
  /-- A location asks for a mode of access that an earlier one rules out. -/
  | modeRefused (mode : String)
  /-- A location asks for an unknown system of files. -/
  | unknownSystem (name : String)
  /-- The file holds something else than a database. -/
  | notADatabase
  /-- A new relation has two columns whose names differ at most in case. -/
  | duplicateName (column : String)
  /-- A relation of that name exists already. -/
  | relationExists (table : String)
  /-- An index of that name exists already. -/
  | indexExists (name : String)
  /-- A statement does not use as many parameters as were given. -/
  | bindingCount (used supplied : Nat)
  /-- A named parameter of a statement has no value. -/
  | unboundName
  /-- A text holds more than one statement. -/
  | severalStatements
  /-- A text that is no number was given for a column of numbers. -/
  | notANumber
  /-- The table of the registry does not have the column. -/
  | unknownColumn
  /-- Two parameters of a statement have one name. -/
  | parameterClash
  /-- A stored value does not fit the type of its column, so it cannot be written out. -/
  | unwritableCell
  /-- The value at this place among the parameters of a statement is of a kind that cannot be stored. -/
  | unsupportedValue (place : Nat) (kind : String)
  /-- A statement that gives no records was asked for some. -/
  | noRecords
  /-- The address of a database is malformed. -/
  | badUrl
  /-- The address of a database in a file names a host or a user; the address as it was understood. -/
  | hostInUrl (url : String)
  /-- The address names an unknown kind of database. -/
  | unknownKind (kind : String)
  /-- The address asks for an unknown extension. -/
  | unknownExtension (name : String)
  /-- The registry gives a table two columns of one name. -/
  | duplicateColumn
  /-- The registry gives a table a column without a name. -/
  | blankColumn
  deriving DecidableEq

namespace StorageError

/-- The wording of a storage error, as far as the store words it. -/
def message? : StorageError → Option String
  | .noSuchTable table => some ("no such table: " ++ table)
  | .noSuchColumn column => some ("no such column: " ++ column)
  | .noColumnNamed table column => some ("table " ++ table ++ " has no column named " ++ column)
  | .notUnique columns => some ("UNIQUE constraint failed: " ++ ", ".intercalate columns)
  | .missingValue column => some ("NOT NULL constraint failed: " ++ column)
  | .typeMismatch => some "datatype mismatch"
  | .widthMismatch values columns =>
    some (toString values ++ " values for " ++ toString columns ++ " columns")
  | .protectedTable table change => some ("table " ++ table ++ " may not be " ++ change)
  | .malformed near => some ("near \"" ++ near ++ "\": syntax error")
  | .unrecognized token => some ("unrecognized token: \"" ++ token ++ "\"")
  | .incomplete => some "incomplete input"
  | .cannotOpen => some "unable to open database file"
  | .readOnly => some "attempt to write a readonly database"
  | .unknownHost host => some ("invalid uri authority: " ++ host)
  | .unknownMode what mode => some ("no such " ++ what ++ " mode: " ++ mode)
  | .modeRefused mode => some ("access mode not allowed: " ++ mode)
  | .unknownSystem name => some ("no such vfs: " ++ name)
  | .notADatabase => some "file is not a database"
  | .duplicateName column => some ("duplicate column name: " ++ column)
  | .relationExists table => some ("table " ++ table ++ " already exists")
  | .indexExists name => some ("index " ++ name ++ " already exists")
  | .bindingCount used supplied =>
    some ("Incorrect number of bindings supplied. The current statement uses " ++ toString used ++
      ", and there are " ++ toString supplied ++ " supplied.")
  | .severalStatements => some "You can only execute one statement at a time."
  | .unsupportedValue place kind =>
    some ("Error binding parameter " ++ toString place ++ ": type '" ++ kind ++ "' is not supported")
  | .notANumber | .unknownColumn | .parameterClash | .unwritableCell | .noRecords | .badUrl
  | .hostInUrl _ | .unknownKind _ | .unknownExtension _ | .duplicateColumn | .blankColumn | .unboundName => none

/-- Whether an error turns up only when records are written. -/
def isConflict : StorageError → Bool
  | .notUnique _ | .missingValue _ | .typeMismatch => true
  | _ => false

end StorageError

/-- Why an operation failed. -/
inductive Failure where
  /-- The store reports an error. -/
  | storage (error : StorageError)
  /-- An integer does not fit 64 bits. -/
  | integerOutOfRange
  /-- The database is closed. -/
  | closed
  /-- A text is no production. -/
  | parse (error : Rule.ParseError)
  /-- A text holds an integer of too many digits. -/
  | integerTooLong (digits : Nat)
  /-- Something that is no part of a production was to be stored; its kind. -/
  | noTableForPart (kind : String)
  /-- A constant has an unknown kind. -/
  | constantKind (code : Value)
  /-- The kind of a constant is no simple value but one of this kind. -/
  | compoundConstantKind (kind : String)
  /-- A relation or a preference has an unknown code. -/
  | signOutOfRange
  /-- The code of a relation or of a preference does not fit 64 bits. -/
  | signTooLarge
  /-- The code of a relation or of a preference is no integer but a value of this kind. -/
  | signNotAnInteger (kind : String)
  /-- A part has a value of this kind where its list of parts should be. -/
  | noParts (kind : String)
  /-- A part has a value of this kind where one of its two lists of parts should be. -/
  | noPartsToJoin (kind : String)
  /-- A path is empty. -/
  | emptyPath
  /-- The name at this place of a path is no text but a value of this kind. -/
  | nameNotText (place : Nat) (kind : String)
  /-- A row is to be shown by its name, which is no text. -/
  | labelNotText
  /-- The text of a rule is no text but a value of this kind. -/
  | ruleNotText (kind : String)
  /-- A source is no text but a value of this kind. -/
  | sourceNotText (kind : String)
  /-- A part of a rule was to be stored under a record that takes none of its table. -/
  | noChildTableForPart (child parent : Table)
  /-- A production was to be stored under a record that is no rule. -/
  | productionOutsideRule (table : Table) (id : Cell)
  /-- A child was to be created in a table that is no child table. -/
  | noChildTable (child parent : Table)
  /-- A record was to be inserted below a parent of the wrong table. -/
  | notAChild (child parent : Table)
  /-- A child was to be created in a table without a directed join. -/
  | notDirectedJoined (child parent : Table)
  /-- Rows of tables that are not joined were to be joined. -/
  | notJoined (first second : Table)
  /-- The table has no such column. -/
  | unknownColumn (table : Table) (column : String)
  /-- The table has no such column that may be written. -/
  | unwritableColumn (table : Table) (column : String)
  /-- The numbers of columns and values differ. -/
  | lengthMismatch
  /-- The column may not be edited. -/
  | notEditable (table : Table) (column : String)
  /-- The value does not fit the column that is edited. -/
  | unacceptable (shown : String) (column : EditableColumn)
  /-- The listener is subscribed already. -/
  | alreadySubscribed
  /-- The listener is not subscribed. -/
  | notSubscribed
  /-- The registry has been handed out already. -/
  | registrySealed
  /-- The statement is closed. -/
  | statementClosed
  /-- The statement has no parameter of this index. -/
  | parameterIndex (index : Int) (count : Nat)
  /-- Parameters of the statement have no value. -/
  | unbound (missing : List Nat) (sql : String)
  /-- A text is no integer. -/
  | notAnInteger (text : String)
  /-- A text is no floating-point number. -/
  | notAFloat (text : String)
  /-- A value that is no number and no text was to be an integer. -/
  | noInteger (kind : String)
  /-- A value that is no number and no text was to be a floating-point number. -/
  | noFloat (kind : String)
  /-- A value of this kind was to be added to an amount of work, which is of another kind. -/
  | notAddable (sum kind : String)
  /-- A value of this kind was to be an amount of work. -/
  | notComparable (kind : String)
  /-- A floating-point number that is no number was to be an integer. -/
  | integerOfNan
  /-- An infinite number was to be an integer. -/
  | integerOfInfinity
  /-- An integer is too large for a floating-point number. -/
  | floatOfLargeInteger
  /-- The port in an address is no number. -/
  | badPort
  /-- A setting in an address does not read as what it has to be. -/
  | badSetting
  /-- A number is set more than once in an address. -/
  | repeatedSetting
  /-- An address names no location although it says so. -/
  | noLocation
  /-- An address names more than one driver. -/
  | severalDrivers
  /-- A source file is no text. -/
  | notText
  /-- There is no such source file. -/
  | noSuchFile
  /-- A path leads to a directory where a file should be. -/
  | isDirectory
  /-- A path leads on from a file. -/
  | notDirectory
  /-- A path has a step with too long a name. -/
  | nameTooLong
  /-- A path holds the character NUL. -/
  | nulInPath
  /-- The driver for a kind of database is missing. -/
  | noDriver
  /-- Rows refer to each other in a cycle, so that following them does not end. -/
  | endless

namespace Failure

/-- A table name in a message. -/
def quotedTable (t : Table) : String := Text.quoted t.tableName

/-- Whether a failure turns up only when records are written. -/
def isConflict : Failure → Bool
  | .storage e => e.isConflict
  | _ => false

/-- A row in a message. -/
def shownRow (t : Table) (id : Cell) : String := "Row(" ++ t.name ++ ", " ++ id.shown ++ ")"

/-- A list of numbers in a message. -/
def shownNumbers (ns : List Nat) : String := "[" ++ ", ".intercalate (ns.map toString) ++ "]"

/-- The wording of a failure, as far as it has one. -/
def message? : Failure → Option String
  | .storage e => e.message?
  | .integerOutOfRange | .badPort | .badSetting | .repeatedSetting | .noLocation
  | .severalDrivers | .labelNotText | .notText | .noSuchFile
  | .isDirectory | .notDirectory | .nameTooLong | .nulInPath | .noDriver | .endless => none
  | .closed => some "Database connection is closed"
  | .parse e => some e.message
  | .integerTooLong digits =>
    some ("Exceeds the limit (" ++ toString Number.maxIntegerDigits ++
      " digits) for integer string conversion: value has " ++ toString digits ++
      " digits; use sys.set_int_max_str_digits() to increase the limit")
  | .noTableForPart kind => some ("No table for AST node " ++ kind)
  | .constantKind code => some code.quoted
  | .compoundConstantKind kind => some ("unhashable type: " ++ Text.quoted kind)
  | .signOutOfRange => some "tuple index out of range"
  | .signTooLarge => some "cannot fit 'int' into an index-sized integer"
  | .signNotAnInteger kind => some ("tuple indices must be integers or slices, not " ++ kind)
  | .noParts kind => some (Text.quoted kind ++ " object is not iterable")
  | .noPartsToJoin kind => some ("Value after * must be an iterable, not " ++ kind)
  | .emptyPath => some "list index out of range"
  | .nameNotText place kind =>
    some ("sequence item " ++ toString place ++ ": expected str instance, " ++ kind ++ " found")
  | .ruleNotText kind => some (Text.quoted kind ++ " object has no attribute 'strip'")
  | .sourceNotText kind => some ("object of type " ++ Text.quoted kind ++ " has no len()")
  | .noChildTableForPart child parent =>
    some ("No child table " ++ quotedTable child ++ " of " ++ quotedTable parent ++ " for AST node")
  | .productionOutsideRule table id =>
    some ("A production can only be stored under a rule, not " ++ shownRow table id)
  | .noChildTable child parent =>
    some ("No child table " ++ quotedTable child ++ " for " ++ quotedTable parent)
  | .notAChild child parent =>
    some (child.tableName ++ " is not a child of " ++ parent.tableName)
  | .notDirectedJoined child parent =>
    some (quotedTable child ++ " is not directed-joined to " ++ quotedTable parent)
  | .notJoined first second =>
    some ("Tables " ++ quotedTable first ++ " and " ++ quotedTable second ++ " are not joined")
  | .unknownColumn table column =>
    some (table.tableName ++ " has no column " ++ Text.quoted column)
  | .unwritableColumn table column =>
    some (table.tableName ++ " has no writable column " ++ Text.quoted column)
  | .lengthMismatch => some "columns and values must have the same length"
  | .notEditable table column =>
    some (Text.quoted column ++ " is not editable on " ++ table.tableName)
  | .unacceptable shown column =>
    some (shown ++ " is not a valid " ++ column.type.name ++ " value for " ++ column.name)
  | .alreadySubscribed => some "Listener is already subscribed"
  | .notSubscribed => some "Listener is not subscribed"
  | .registrySealed => some "SchemaRegistry has already been built"
  | .statementClosed => some "Statement is closed"
  | .parameterIndex index count =>
    some ("Parameter index " ++ toString index ++ " out of range for " ++ toString count ++
      " parameters")
  | .unbound missing sql => some ("Unbound parameters " ++ shownNumbers missing ++ " in: " ++ sql)
  | .notAnInteger text =>
    some ("invalid literal for int() with base 10: " ++ Text.quotedStart 200 text)
  | .notAFloat text => some ("could not convert string to float: " ++ Text.quoted text)
  | .noInteger kind =>
    some ("int() argument must be a string, a bytes-like object or a real number, not " ++
      Text.quoted kind)
  | .noFloat kind =>
    some ("float() argument must be a string or a real number, not " ++ Text.quoted kind)
  | .notAddable sum kind =>
    some ("unsupported operand type(s) for +=: " ++ Text.quoted sum ++ " and " ++ Text.quoted kind)
  | .notComparable kind =>
    some ("'>' not supported between instances of " ++ Text.quoted kind ++ " and 'int'")
  | .integerOfNan => some "cannot convert float NaN to integer"
  | .integerOfInfinity => some "cannot convert float infinity to integer"
  | .floatOfLargeInteger => some "int too large to convert to float"

/-- The failure of reading a text. -/
def ofRead : Rule.ReadFailure → Failure
  | .parse e => .parse e
  | .integerTooLong digits => .integerTooLong digits

end Failure

end SoarProject
