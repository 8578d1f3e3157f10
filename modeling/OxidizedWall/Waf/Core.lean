import OxidizedWall.Lib.Regex
import OxidizedWall.Lib.Utf8
import OxidizedWall.Unicode

/-!
# Attack signatures (`waf/core.rs`)

The pattern set that is run over raw bytes. A byte pattern reads UTF-8: `.` and `\s` stand for
whole sequences, and a byte that belongs to none matches neither.
-/

namespace OxidizedWall.Core

open Regex

/-- A literal under `(?i)`. -/
def word (s : String) : Regex := lit sameLetter s.toList

/-- `\s`. -/
def space : Regex := set isWhitespace

/-- `.`. -/
def any : Regex := set (· != '\n')

def sql : Regex := alts [
  cat (word "union") (cat (plus space) (word "select")),
  cat (word "select") (cat (plus space) (cat (star true any) (cat (plus space) (word "from")))),
  cat (word "insert") (cat (plus space) (word "into")),
  cat (word "drop") (cat (plus space) (word "table")),
  word "' OR '1'='1'",
  word "--"]

def xss : Regex := alts [
  cat (word "<script") (cat (star false any) (word ">")),
  word "javascript:",
  cat (word "onerror") (cat (star true space) (word "=")),
  cat (word "onload") (cat (star true space) (word "=")),
  word "alert(",
  word "<iframe>"]

def command : Regex := alts [
  cat (word ";") (cat (star true space) (alts [word "ls", word "rm", word "cat", word "id",
    word "whoami", word "pwd", word "wget", word "curl"])),
  word "&&",
  word "||",
  word "|",
  cat (word "$(") (cat (star false any) (word ")"))]

def getPatterns : List Regex := [sql, xss, command]

/-- `is_attack`. No pattern looks at word boundaries. -/
def isAttack (input : Bytes) : Bool :=
  getPatterns.any fun r => isMatchBytes Utf8.decodeChar (fun _ => false) r input

end OxidizedWall.Core
