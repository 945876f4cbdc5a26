import QtMigration.Text.Basic

/-!
# CommandLine/Help — the program's name and its help text
-/

namespace QtMigration

/-- The name under which the program reports. -/
def programName : Text := "pyqt4topyqt5"

def usageText : Text :=
  "usage: pyqt4topyqt5 [-h] [--nosubdir] [--followlinks] [-o O] [--diff [DIFF]]\n" ++
  "                    [--diffs] [--nolog] [--nopyqt5]\n" ++
  "                    path\n"

/-- What is printed when help is asked for. -/
def helpText : Text :=
  usageText ++
  "\n" ++
  "Convert a source code written for PyQt4 into a valid code for PyQt5\n" ++
  "\n" ++
  "positional arguments:\n" ++
  "  path           Path of a file or a directory. The file may be a source code\n" ++
  "                 python or a text file wich contains the names of the files to\n" ++
  "                 be converted separated by a new line.\n" ++
  "\n" ++
  "options:\n" ++
  "  -h, --help     show this help message and exit\n" ++
  "  --nosubdir     Don't process into sub-directories. Default: False\n" ++
  "  --followlinks  Visit directories pointed to by symlinks. Default: False\n" ++
  "  -o O           The name of the generated file or directory if path is a\n" ++
  "                 directory. Default: path_PyQt5 (path_PyQt4 if --nopyqt5)\n" ++
  "  --diff [DIFF]  Write a diff file. If there's more than one file converted,\n" ++
  "                 all the diff are written into one file. If no name is\n" ++
  "                 provided, the diff file will be named with the name of the\n" ++
  "                 source. Default: False\n" ++
  "  --diffs        Write a diff file for each file converted.The diff files will\n" ++
  "                 be created in the same destination dir as the converted files\n" ++
  "                 Default: False\n" ++
  "  --nolog        Do not create a log file. Default: False\n" ++
  "  --nopyqt5      Only perform updates that are compatable with PyQt4. Default:\n" ++
  "                 False\n"

end QtMigration
